import Patchbay.Kernel.Filter
import Patchbay.Kernel.Oscillator
import Patchbay.Number.Text
import Patchbay.Text.Quoted

/-!
# Operations

What a node of an expression computes from its children, each with its arity and its text.
-/

set_option autoImplicit false

namespace Patchbay

def truth (b : Bool) : Float32 := if b then 1.0 else 0.0

inductive BinaryOp where
  | add
  | sub
  | mul
  | div
  | mod
  | pow
  | min
  | max
  | eq
  | lt
  | le
  | gt
  | ge
  | and
  | or
  deriving DecidableEq, Repr

namespace BinaryOp

def all : List BinaryOp :=
  [add, sub, mul, div, mod, pow, min, max, eq, lt, le, gt, ge, and, or]

def name : BinaryOp → String
  | add => "add"
  | sub => "sub"
  | mul => "mul"
  | div => "div"
  | mod => "mod"
  | pow => "pow"
  | min => "min"
  | max => "max"
  | eq => "eq"
  | lt => "lt"
  | le => "le"
  | gt => "gt"
  | ge => "ge"
  | and => "and"
  | or => "or"

/-- Products are annihilated by an exact zero; comparisons and logic give 1 or 0. -/
def apply (f : BinaryOp) (a b : Float32) : Float32 :=
  match f with
  | add => a + b
  | sub => a - b
  | mul => mulAnnihilating a b
  | div => a / b
  | mod => Single.remainder a b
  | pow => Single.pow a b
  | min => Single.min a b
  | max => Single.max a b
  | eq => truth (a == b)
  | lt => truth (a < b)
  | le => truth (a ≤ b)
  | gt => truth (b < a)
  | ge => truth (b ≤ a)
  | and => truth (a != 0.0 && b != 0.0)
  | or => truth (a != 0.0 || b != 0.0)

end BinaryOp

/-- Taps pass their input through and report it: meters the extremes of a block, scopes windows
of samples, spectra the magnitudes of a window. -/
inductive Tap where
  | meter (name : String)
  | scope (name : String) (size : Nat)
  | fft (name : String) (size : Nat)
  deriving DecidableEq, Repr

namespace Tap

def name : Tap → String
  | meter n => n
  | scope n _ => n
  | fft n _ => n

def keyword : Tap → String
  | meter _ => "meter"
  | scope _ _ => "scope"
  | fft _ _ => "fft"

def text : Tap → String
  | meter n => "meter " ++ Quoted.encode n
  | scope n size => "scope " ++ Quoted.encode n ++ " " ++ digitText size
  | fft n size => "fft " ++ Quoted.encode n ++ " " ++ digitText size

end Tap

inductive Op where
  | const (value : Float32)
  | binary (f : BinaryOp)
  | oscillator (w : Waveform)
  /-- The key of the node seeds the generator. -/
  | noise
  /-- Cutoff, resonance, input. -/
  | filter (mode : FilterMode)
  /-- Time in milliseconds, feedback, input. -/
  | delay (maxMs : Float32)
  /-- Attack, decay, sustain, release, gate. -/
  | envelope
  /-- Trigger, reset. -/
  | steps (values : List Float32) (hold loops : Bool)
  | tap (t : Tap)

namespace Op

def arity : Op → Nat
  | const _ => 0
  | noise => 0
  | oscillator _ => 1
  | tap _ => 1
  | binary _ => 2
  | steps _ _ _ => 2
  | filter _ => 3
  | delay _ => 3
  | envelope => 5

def oscillatorName : Waveform → String
  | .sine => "cycle"
  | .triangle => "triangle"
  | .saw => "saw"
  | .square => "square"
  | .gate => "train"

def mnemonic : Op → String
  | const _ => "const"
  | noise => "noise"
  | oscillator w => oscillatorName w
  | tap t => t.keyword
  | binary f => f.name
  | steps _ _ _ => "seq"
  | filter _ => "svf"
  | delay _ => "delay"
  | envelope => "adsr"

def tap? : Op → Option Tap
  | tap t => some t
  | _ => none

def text : Op → String
  | const v => "const " ++ NumberLayout.plain.single v
  | filter mode => "svf:" ++ mode.name
  | delay maxMs => "delay:" ++ NumberLayout.plain.single maxMs ++ "ms"
  | steps values hold loops =>
    "seq[" ++ " ".intercalate (values.map NumberLayout.plain.single) ++ "]"
      ++ (if hold then ":hold" else "") ++ (if loops then ":loop" else "")
  | tap t => t.text
  | op => op.mnemonic

/-- Numbers are compared as numbers, so a NaN makes operations unequal. -/
def same : Op → Op → Bool
  | const v, const w => v == w
  | binary f, binary g => f = g
  | oscillator v, oscillator w => v = w
  | noise, noise => true
  | filter m, filter n => m = n
  | delay v, delay w => v == w
  | envelope, envelope => true
  | steps vs h l, steps ws h' l' => vs == ws && h == h' && l == l'
  | tap t, tap u => t = u
  | _, _ => false

end Op

end Patchbay
