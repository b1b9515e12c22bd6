import Patchbay.Expr.Basic
import Patchbay.Kernel.DelayLine
import Patchbay.Kernel.Envelope
import Patchbay.Kernel.Noise
import Patchbay.Kernel.StepSequencer
import Patchbay.Render.Spectrum
import Patchbay.Render.Probe

/-!
# Kernels

The running state of one expression node. A kernel is stepped once per frame with the values of
its arguments and gives the value of the node; a tap may raise an event on the way.
-/

set_option autoImplicit false

namespace Patchbay

/-- The extremes of the samples since the last report and their number. -/
structure Extremes where
  min : Float32
  max : Float32
  count : Nat

namespace Extremes

def empty : Extremes := ⟨Single.infinity, Single.negInfinity, 0⟩

def push (x : Extremes) (sample : Float32) : Extremes :=
  ⟨Single.min x.min sample, Single.max x.max sample, x.count + 1⟩

end Extremes

/-- An event that a tap is ready to report, built only for those who listen. -/
structure Raised where
  tag : ProbeTag
  build : String → ProbeEvent

inductive Kernel where
  | const (value : Float32)
  | binary (f : BinaryOp)
  | oscillator (o : Oscillator)
  | noise (n : Noise)
  | filter (f : Filter)
  | delay (d : DelayLine)
  | envelope (e : Envelope) (gate : Bool)
  | steps (s : StepSequencer)
  | meter (name : String) (x : Extremes)
  | scope (name : String) (size : Nat) (held : Array Float32)
  | fft (name : String) (size : Nat) (held : Array Float32)

namespace Kernel

/-- Why a node has no kernel. -/
inductive SetupError where
  | emptyWindow (tag : ProbeTag)
  | fault (f : KernelFault)
  deriving DecidableEq, Repr

/-- The kernel of a tap whose window is held in one array. -/
def window (t : Tap) (size : Nat) (k : Kernel) : Except SetupError Kernel :=
  if size = 0 then .error (.emptyWindow t.tag)
  else if HasRoom size then .ok k
  else .error (.fault .tooLong)

/-- A fresh kernel for a node. Noise without a key is seeded by its own name. -/
def setup (op : Op) (key : Option String) (sampleRate : Float32) : Except SetupError Kernel :=
  match op with
  | .const v => .ok (const v)
  | .binary f => .ok (binary f)
  | .oscillator w => .ok (oscillator ((Oscillator.new sampleRate).setWaveform w))
  | .noise => .ok (noise (.ofKey (key.getD "noise")))
  | .filter mode => .ok (filter ((Filter.new sampleRate).setMode mode))
  | .delay maxMs =>
    match DelayLine.ofTime sampleRate (maxMs / 1000.0) with
    | .ok d => .ok (delay d)
    | .error f => .error (.fault f)
  | .envelope => .ok (envelope (.new sampleRate) false)
  | .steps values hold loops => .ok (steps (.new values hold loops))
  | .tap (.meter name) => .ok (meter name .empty)
  | .tap (.scope name size) => window (.scope name size) size (scope name size #[])
  | .tap (.fft name size) => window (.fft name size) size (fft name size #[])

structure Step where
  value : Float32
  kernel : Kernel
  raised : Option Raised

/-- Rising and falling edges of the gate start and release the envelope. -/
def gateEdge (e : Envelope) (was high : Bool) : Envelope :=
  if high && !was then e.gateOn else if !high && was then e.gateOff else e

/-- The distance to read at for a delay in milliseconds. The read comes before the write of the
same frame, hence one sample less. -/
def delayDistance (ms sampleRate : Float32) : Float32 :=
  Single.max (msToSamples ms sampleRate - 1.0) 0.0

/-- One frame. `arg` gives the values of the arguments. -/
def tick (k : Kernel) (arg : Nat → Float32) (sampleRate : Float32) : Except KernelFault Step :=
  match k with
  | const v => .ok ⟨v, const v, none⟩
  | binary f => .ok ⟨f.apply (arg 0) (arg 1), binary f, none⟩
  | oscillator o =>
    let (y, o) := (o.setFrequency (arg 0)).advance
    .ok ⟨y, oscillator o, none⟩
  | noise n =>
    let (y, n) := n.advance
    .ok ⟨y, noise n, none⟩
  | filter f =>
    match f.setCutoff (arg 0) with
    | .ok f =>
      let (y, f) := (f.setResonance (arg 1)).process (arg 2)
      .ok ⟨y, filter f, none⟩
    | .error e => .error e
  | delay d =>
    let y := d.read (delayDistance (arg 0) sampleRate)
    .ok ⟨y, delay (d.write (flushDenormal (arg 2 + arg 1 * y))), none⟩
  | envelope e gate =>
    let high := decide ((0.0 : Float32) < arg 4)
    let e := (gateEdge (e.setTimes (arg 0) (arg 1) (arg 2) (arg 3)) gate high).advance
    .ok ⟨e.level, envelope e high, none⟩
  | steps s =>
    let (y, s) := s.tick (arg 0) (arg 1)
    .ok ⟨y, steps s, none⟩
  | meter name x => .ok ⟨arg 0, meter name (x.push (arg 0)), none⟩
  | scope name size held =>
    let held := held.push (arg 0)
    if size ≤ held.size then
      .ok ⟨arg 0, scope name size #[], some ⟨⟨.scope, name⟩, fun n => .scope n held.toList⟩⟩
    else .ok ⟨arg 0, scope name size held, none⟩
  | fft name size held =>
    let held := held.push (arg 0)
    if size ≤ held.size then
      .ok ⟨arg 0, fft name size #[],
        some ⟨⟨.fft, name⟩, fun n => .fft n (Spectrum.magnitudes size held.toList .hann)⟩⟩
    else .ok ⟨arg 0, fft name size held, none⟩

/-- What a meter reports at the end of a block, if it saw any sample. -/
def endBlock (k : Kernel) : Kernel × Option Raised :=
  match k with
  | meter name x =>
    if x.count = 0 then (k, none)
    else (meter name .empty, some ⟨⟨.meter, name⟩, fun n => .meter n x.min x.max⟩)
  | k => (k, none)

/-- Back to the state of a fresh kernel; constants keep their value. -/
def reset (k : Kernel) : Kernel :=
  match k with
  | const v => const v
  | binary f => binary f
  | oscillator o => oscillator o.reset
  | noise n => noise n.reset
  | filter f => filter f.reset
  | delay d => delay d.clear
  | envelope e _ => envelope e.reset false
  | steps s => steps s.reset
  | meter name _ => meter name .empty
  | scope name size _ => scope name size #[]
  | fft name size _ => fft name size #[]

def setConst (value : Float32) (k : Kernel) : Kernel :=
  match k with
  | const _ => const value
  | k => k

end Kernel

end Patchbay
