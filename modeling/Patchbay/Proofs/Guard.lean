import Mathlib
import Patchbay.Render.Renderer

/-!
# Guarded execution

Loading and rendering once more, with every check that a machine of 64-bit words makes on the way:
sums and differences of words, places in arrays, the length of an array, the bounds of a clamp.
Where a check fails the run stops. A check that the machine makes only sometimes is made always.
-/

set_option autoImplicit false

namespace Patchbay

/-- Why a guarded run stops. All causes but the first are panics. -/
inductive Stop where
  /-- A tap without a window is refused. -/
  | refused (tag : ProbeTag)
  /-- A sum or a difference that is no word. -/
  | overflow
  /-- A place behind the end of an array. -/
  | outOfRange
  /-- An array that no address space has room for. -/
  | tooLong
  /-- A delay line without a sample. -/
  | emptyDelayLine
  /-- A clamp whose bounds are reversed or NaN. -/
  | reversedBounds
  deriving DecidableEq, Repr

namespace Guard

def ofFault : KernelFault → Stop
  | .emptyDelayLine => .emptyDelayLine
  | .tooLong => .tooLong
  | .emptyCutoffRange => .reversedBounds

def ofSetup : Kernel.SetupError → Stop
  | .emptyWindow tag => .refused tag
  | .fault f => ofFault f

def sum (a b : Nat) : Except Stop Nat := if a + b < 2 ^ 64 then .ok (a + b) else .error .overflow

def difference (a b : Nat) : Except Stop Nat := if b ≤ a then .ok (a - b) else .error .overflow

def get (xs : Array Float32) (i : Nat) : Except Stop Float32 :=
  match xs[i]? with
  | some x => .ok x
  | none => .error .outOfRange

def set (xs : Array Float32) (i : Nat) (x : Float32) : Except Stop (Array Float32) :=
  if i < xs.size then .ok (xs.setIfInBounds i x) else .error .outOfRange

def room (n : Nat) : Except Stop Unit := if HasRoom n then .ok () else .error .tooLong

def bounds (low high : Float32) : Except Stop Unit :=
  if low ≤ high then .ok () else .error .reversedBounds

/-! ## Kernels -/

def newDelay (sampleRate seconds : Float32) : Except Stop DelayLine := do
  let n ← sum (Single.toNat (sampleRate * Single.max seconds 0.0)) 1
  (DelayLine.new n).mapError ofFault

def readDelay (d : DelayLine) (delay : Float32) : Except Stop Float32 := do
  let last ← difference d.capacity 1
  let c := Single.min (Single.max delay 0.0) (Single.ofNat last)
  let k := Single.toNat c
  let i ← sum d.next d.capacity
  let i ← difference i k
  let i ← difference i 1
  let j ← sum (i % d.capacity) d.capacity
  let j ← difference j 1
  let a ← get d.cells (i % d.capacity)
  let b ← get d.cells (j % d.capacity)
  return a + (b - a) * (c - Single.ofNat k)

def writeDelay (d : DelayLine) (x : Float32) : Except Stop DelayLine := do
  let _ ← set d.cells d.next x
  let _ ← sum d.next 1
  return d.write x

def setCutoff (f : Filter) (hz : Float32) : Except Stop Filter := do
  bounds Filter.lowestCutoff (Filter.highestCutoff f.sampleRate)
  (f.setCutoff hz).mapError ofFault

def setup (op : Op) (key : Option String) (sampleRate : Float32) : Except Stop Kernel :=
  match op with
  | .delay maxMs => Kernel.delay <$> newDelay sampleRate (maxMs / 1000.0)
  | op => (Kernel.setup op key sampleRate).mapError ofSetup

/-- One more sample in a window that is then looked at. -/
def gather (held : Array Float32) (x : Float32) : Except Stop (Array Float32) := do
  let n ← sum held.size 1
  room n
  return held.push x

/-- One frame. -/
def tick (k : Kernel) (arg : Nat → Float32) (sampleRate : Float32) : Except Stop Kernel.Step := do
  match k with
  | .filter f =>
    let f ← setCutoff f (arg 0)
    bounds 0.5 20.0
    let (y, f) := (f.setResonance (arg 1)).process (arg 2)
    return ⟨y, .filter f, none⟩
  | .delay d =>
    let y ← readDelay d (Kernel.delayDistance (arg 0) sampleRate)
    let d ← writeDelay d (flushDenormal (arg 2 + arg 1 * y))
    return ⟨y, .delay d, none⟩
  | .envelope e gate =>
    bounds 0.0 1.0
    let high := decide ((0.0 : Float32) < arg 4)
    let e := (Kernel.gateEdge (e.setTimes (arg 0) (arg 1) (arg 2) (arg 3)) gate high).advance
    return ⟨e.level, .envelope e high, none⟩
  | .steps s =>
    let _ ← sum (s.position.getD 0) 1
    let (y, s) := s.tick (arg 0) (arg 1)
    return ⟨y, .steps s, none⟩
  | .meter name x =>
    let n ← sum x.count 1
    return ⟨arg 0, .meter name { x.push (arg 0) with count := n }, none⟩
  | .scope name size held =>
    let held ← gather held (arg 0)
    if size ≤ held.size then
      return ⟨arg 0, .scope name size #[],
        some ⟨⟨.scope, name⟩, fun n => .scope n held.toList⟩⟩
    else return ⟨arg 0, .scope name size held, none⟩
  | .fft name size held =>
    let held ← gather held (arg 0)
    if size ≤ held.size then
      return ⟨arg 0, .fft name size #[],
        some ⟨⟨.fft, name⟩, fun n => .fft n (Spectrum.magnitudes size held.toList .hann)⟩⟩
    else return ⟨arg 0, .fft name size held, none⟩
  | k => (k.tick arg sampleRate).mapError ofFault

/-! ## Programs -/

def cellOf (nodes : List Expr) (sampleRate : Float32) (e : Expr) : Except Stop Cell := do
  let k ← setup e.op e.key sampleRate
  return ⟨k, Program.argSlots nodes e⟩

def build (left right : Expr) (sampleRate : Float32) : Except Stop Program := do
  let nodes := Expr.nodesOf [left, right]
  let cells ← nodes.mapM (cellOf nodes sampleRate)
  return {
    cells := Program.zeroCell :: cells
    values := .replicate (cells.length + 1) 0.0
    constants := Program.keyedSlots nodes
    taps := (Expr.tapsOf nodes).map Tap.tag
    left := Program.slotOf nodes left
    right := Program.slotOf nodes right
    sampleRate := sampleRate }

def fetch (values : Array Float32) : Nat → List Nat → Array Float32 → Except Stop (Array Float32)
  | _, [], scratch => return scratch
  | i, slot :: rest, scratch => do
    let x ← get values slot
    let scratch ← set scratch i x
    fetch values (i + 1) rest scratch

def step (sampleRate : Float32) :
    List Cell → Nat → Array Float32 → Array Float32 → Except Stop Program.Frame
  | [], _, values, _ => return ⟨[], values, []⟩
  | ⟨kernel, args⟩ :: rest, slot, values, scratch => do
    let scratch ← fetch values 0 args scratch
    let s ← tick kernel (fun i => scratch.getD i 0.0) sampleRate
    let values ← set values slot s.value
    let f ← step sampleRate rest (slot + 1) values scratch
    return ⟨⟨s.kernel, args⟩ :: f.cells, f.values, s.raised.toList ++ f.raised⟩

/-! ## Runs -/

def route : List Raised → ProbeBus → List Delivery → Except Stop (List Delivery × ProbeBus)
  | [], bus, done => return (done, bus)
  | e :: rest, bus, done => do
    if bus.wants e.tag then discard (sum bus.delivered 1)
    let (deliveries, bus) := bus.emitWith e.tag e.build
    route rest bus (deliveries.reverse ++ done)

def frame (blockSize : Nat) (run : Renderer.Run) : Except Stop Renderer.Run := do
  let f ← step run.program.sampleRate run.program.cells 0 run.program.values Program.scratch
  let l ← get f.values run.program.left
  let r ← get f.values run.program.right
  let (delivered, bus) ← route f.raised run.bus run.delivered
  let pos ← sum run.blockPos 1
  let program := { run.program with cells := f.cells, values := f.values }
  if blockSize ≤ pos then
    let (raised, program) := program.endBlock
    let (delivered, bus) ← route raised bus delivered
    return ⟨program, bus, 0, run.out.push l r, delivered⟩
  else return ⟨program, bus, pos, run.out.push l r, delivered⟩

def frames (blockSize : Nat) : Nat → Renderer.Run → Except Stop Renderer.Run
  | 0, run => return run
  | n + 1, run => do
    let run ← frame blockSize run
    frames blockSize n run

def load (r : Renderer) (left right : Expr) : Except Stop Renderer := do
  let program ← build left right r.sampleRate
  return { r with loaded := some ⟨left, right, program, []⟩, blockPos := 0, frames := 0 }

/-- The next `n` frames. Both channels are reserved at once. -/
def process (r : Renderer) (n : Nat) : Except Stop (Heard Stereo × Renderer) := do
  room n
  match r.loaded with
  | none => return (⟨⟨.replicate n 0.0, .replicate n 0.0⟩, []⟩, r)
  | some l =>
    let run ← frames r.blockSize n ⟨l.program, r.bus, r.blockPos, .empty, []⟩
    let count ← sum r.frames n
    return (⟨run.out, run.delivered.reverse⟩,
      { r with
        loaded := some { l with program := run.program }
        bus := run.bus
        blockPos := run.blockPos
        frames := count })

end Guard

end Patchbay
