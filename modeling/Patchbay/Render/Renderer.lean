import Patchbay.Number.Text
import Patchbay.Render.Program

/-!
# Rendering

A renderer runs the program of a pair of expressions frame by frame. Meters report once per
block, blocks being counted in frames whatever the calls; scopes and spectra report whenever
their window fills. Without a program the output is silence.
-/

set_option autoImplicit false

namespace Patchbay

inductive RenderError where
  | invalidSampleRate (rate : Float32)
  | emptyWindow (tag : ProbeTag)
  /-- A kernel cannot run at this sample rate at all. -/
  | fault (f : KernelFault)

namespace RenderError

def ofSetup : Kernel.SetupError → RenderError
  | .emptyWindow tag => emptyWindow tag
  | .fault f => fault f

def message : RenderError → String
  | invalidSampleRate rate =>
    "sample rate must be positive and finite, got " ++ NumberLayout.plain.single rate
  | emptyWindow tag => tag.kind.name ++ " tap `" ++ tag.name ++ "` has a zero-length window"
  | fault _ => "kernel fault"

end RenderError

/-- A rendered pair of channels of equal length. -/
structure Stereo where
  left : Array Float32
  right : Array Float32

namespace Stereo

def empty : Stereo := ⟨#[], #[]⟩

def push (s : Stereo) (l r : Float32) : Stereo := ⟨s.left.push l, s.right.push r⟩

def frames (s : Stereo) : Nat := s.left.size

/-- Left and right samples in turn. -/
def interleaved (s : Stereo) : Array Float32 :=
  (s.left.zip s.right).flatMap fun (l, r) => #[l, r]

end Stereo

/-- What is running: the roots, their program and the latest value set for each key. -/
structure Loaded where
  leftRoot : Expr
  rightRoot : Expr
  program : Program
  overrides : List (String × Float32)

structure Renderer where
  sampleRate : Float32
  blockSize : Nat
  blockPos : Nat
  loaded : Option Loaded
  bus : ProbeBus
  /-- The frames processed since the last load or reset. -/
  frames : Nat

/-- A result together with the events delivered on the way. -/
structure Heard (α : Type) where
  value : α
  deliveries : List Delivery

namespace Renderer

def defaultBlockSize : Nat := 512

def checkSampleRate (rate : Float32) : Except RenderError Unit :=
  if rate.isFinite && (0.0 : Float32) < rate then .ok () else .error (.invalidSampleRate rate)

def new (sampleRate : Float32) : Except RenderError Renderer := do
  checkSampleRate sampleRate
  return ⟨sampleRate, defaultBlockSize, 0, none, .empty, 0⟩

/-- A block has at least one frame. -/
def withBlockSize (r : Renderer) (n : Nat) : Renderer := { r with blockSize := max n 1 }

def buildProgram (left right : Expr) (sampleRate : Float32) : Except RenderError Program :=
  match Program.build left right sampleRate with
  | .ok p => .ok p
  | .error e => .error (.ofSetup e)

/-- Replaces what is running. All state starts fresh and what was set is forgotten. -/
def load (r : Renderer) (left right : Expr) : Except RenderError Renderer := do
  let program ← buildProgram left right r.sampleRate
  return { r with loaded := some ⟨left, right, program, []⟩, blockPos := 0, frames := 0 }

def clear (r : Renderer) : Renderer := { r with loaded := none, blockPos := 0, frames := 0 }

def isLoaded (r : Renderer) : Bool := r.loaded.isSome

/-- Puts a value under a key, replacing an older one in its place. -/
def override (key : String) (value : Float32) : List (String × Float32) → List (String × Float32)
  | [] => [(key, value)]
  | (k, v) :: rest => if k = key then (key, value) :: rest else (k, v) :: override key value rest

/-- Sets every constant under a key; `none` if there is no such constant. -/
def setConst? (r : Renderer) (key : String) (value : Float32) : Option Renderer := do
  let l ← r.loaded
  let program ← l.program.setConst? key value
  return { r with
    loaded := some { l with program := program, overrides := override key value l.overrides } }

def constKeys (r : Renderer) : List String :=
  match r.loaded with
  | some l => l.program.constKeys
  | none => []

def taps (r : Renderer) : List ProbeTag :=
  match r.loaded with
  | some l => l.program.taps
  | none => []

/-- Runs what is loaded at another rate. Set values stay, all other state is fresh. -/
def setSampleRate (r : Renderer) (rate : Float32) : Except RenderError Renderer := do
  checkSampleRate rate
  match r.loaded with
  | none => return { r with sampleRate := rate, blockPos := 0 }
  | some l =>
    let program ← buildProgram l.leftRoot l.rightRoot rate
    let program := l.overrides.foldl (fun p (key, value) => p.setConst key value) program
    return { r with
      sampleRate := rate, blockPos := 0, loaded := some { l with program := program } }

/-- Clears the running state but not what was set. -/
def reset (r : Renderer) : Renderer :=
  { r with
    loaded := r.loaded.map fun l => { l with program := l.program.reset }
    blockPos := 0
    frames := 0 }

/-- Hands raised events to the bus in order. `done` is what was delivered before, last first. -/
def route : List Raised → ProbeBus → List Delivery → List Delivery × ProbeBus
  | [], bus, done => (done, bus)
  | e :: rest, bus, done =>
    let (deliveries, bus) := bus.emitWith e.tag e.build
    route rest bus (deliveries.reverse ++ done)

/-- A run under way: the program, the bus, the position in the block, the frames so far and what
was delivered, last first. -/
structure Run where
  program : Program
  bus : ProbeBus
  blockPos : Nat
  out : Stereo
  delivered : List Delivery

/-- One frame, and the end of the block if it was the last of one. -/
def Run.frame (blockSize : Nat) : Run → Except KernelFault Run
  | ⟨⟨cells, values, constants, taps, left, right, rate⟩, bus, blockPos, out, delivered⟩ =>
    match Program.step rate cells 0 values Program.scratch with
    | .error e => .error e
    | .ok ⟨cells, values, raised⟩ =>
      let out := out.push (values.getD left 0.0) (values.getD right 0.0)
      let (delivered, bus) := route raised bus delivered
      let program : Program := ⟨cells, values, constants, taps, left, right, rate⟩
      if blockSize ≤ blockPos + 1 then
        let (raised, program) := program.endBlock
        let (delivered, bus) := route raised bus delivered
        .ok ⟨program, bus, 0, out, delivered⟩
      else .ok ⟨program, bus, blockPos + 1, out, delivered⟩

def Run.frames (blockSize : Nat) : Nat → Run → Except KernelFault Run
  | 0, run => .ok run
  | n + 1, run =>
    match run.frame blockSize with
    | .ok run => run.frames blockSize n
    | .error e => .error e

/-- The next `n` frames. -/
def process (r : Renderer) (n : Nat) : Except KernelFault (Heard Stereo × Renderer) :=
  match r with
  | ⟨rate, blockSize, blockPos, none, bus, frames⟩ =>
    .ok (⟨⟨.replicate n 0.0, .replicate n 0.0⟩, []⟩, ⟨rate, blockSize, blockPos, none, bus, frames⟩)
  | ⟨rate, blockSize, blockPos, some ⟨leftRoot, rightRoot, program, overrides⟩, bus, frames⟩ =>
    match Run.frames blockSize n ⟨program, bus, blockPos, .empty, []⟩ with
    | .error e => .error e
    | .ok ⟨program, bus, blockPos, out, delivered⟩ =>
      .ok (⟨out, delivered.reverse⟩,
        ⟨rate, blockSize, blockPos, some ⟨leftRoot, rightRoot, program, overrides⟩, bus,
          frames + n⟩)

/-- Fills two buffers with the next frames, as many as the shorter one holds; what is left of
the longer one keeps its content, unless nothing is loaded and both are silenced. -/
def processBlock (r : Renderer) (left right : Array Float32) :
    Except KernelFault (Heard (Array Float32 × Array Float32) × Renderer) :=
  if r.isLoaded then do
    let (heard, r) ← r.process (min left.size right.size)
    let fill (new old : Array Float32) := new ++ old.extract new.size old.size
    return (⟨(fill heard.value.left left, fill heard.value.right right), heard.deliveries⟩, r)
  else .ok (⟨(left.map fun _ => 0.0, right.map fun _ => 0.0), []⟩, r)

/-- Reports the extremes of a block that is not full. -/
def flush (r : Renderer) : List Delivery × Renderer :=
  match r.loaded with
  | none => ([], { r with blockPos := 0 })
  | some l =>
    let (raised, program) := l.program.endBlock
    let (delivered, bus) := route raised r.bus []
    (delivered.reverse,
      { r with loaded := some { l with program := program }, bus := bus, blockPos := 0 })

def subscribe (r : Renderer) (tag : ProbeTag) (listener : Nat) : Renderer :=
  { r with bus := r.bus.subscribe tag listener }

def unsubscribe (r : Renderer) (tag : ProbeTag) : Renderer :=
  { r with bus := r.bus.unsubscribe tag }

/-- The right channel of a mono rendering. -/
def silentRoot : Expr := .node ⟨.silence, 0⟩ (.const 0.0) none []

end Renderer

def renderMono (e : Expr) (sampleRate : Float32) (frames : Nat) :
    Except RenderError (Array Float32) := do
  let r ← Renderer.new sampleRate
  let r ← r.load e Renderer.silentRoot
  match r.process frames with
  | .ok (heard, _) => return heard.value.left
  | .error f => throw (.fault f)

end Patchbay
