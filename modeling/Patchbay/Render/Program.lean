import Patchbay.Render.Kernel

/-!
# Programs

A pair of expressions lowered to one cell per distinct node, children first. Every cell writes
its own slot, so what several nodes share runs once per frame. Slot 0 is a constant zero that
stands in for missing children. The slots outlive a frame, and all cells of a frame are handed
their arguments in one scratch; neither is cleared in between.
-/

set_option autoImplicit false

namespace Patchbay

structure Cell where
  kernel : Kernel
  /-- The slots of the arguments, as many as the operation takes. -/
  args : List Nat

structure Program where
  cells : List Cell
  /-- What each cell wrote last. -/
  values : Array Float32
  /-- The slots of the keyed constants. -/
  constants : List (String × Nat)
  taps : List ProbeTag
  left : Nat
  right : Nat
  sampleRate : Float32

namespace Program

def zeroCell : Cell := ⟨.const 0.0, []⟩

/-- The slot of a node among the distinct nodes of a program, 0 for none of them. -/
def slotOf (nodes : List Expr) (e : Expr) : Nat :=
  match nodes.findIdx? (·.label = e.label) with
  | some i => i + 1
  | none => 0

/-- Children beyond the arity are left out, missing ones read slot 0. -/
def argSlots (nodes : List Expr) (e : Expr) : List Nat :=
  (List.range e.op.arity).map fun i =>
    match e.children[i]? with
    | some c => slotOf nodes c
    | none => 0

def cellOf (nodes : List Expr) (sampleRate : Float32) (e : Expr) :
    Except Kernel.SetupError Cell :=
  match Kernel.setup e.op e.key sampleRate with
  | .ok k => .ok ⟨k, argSlots nodes e⟩
  | .error err => .error err

/-- The key of a constant that can be set. -/
def constKey? (e : Expr) : Option String :=
  match e.op, e.key with
  | .const _, some key => some key
  | _, _ => none

def keyedSlots (nodes : List Expr) : List (String × Nat) :=
  nodes.filterMap fun e => (constKey? e).map fun key => (key, slotOf nodes e)

/-- Fails at the first node, in the order of the slots, that has no kernel. -/
def build (left right : Expr) (sampleRate : Float32) : Except Kernel.SetupError Program := do
  let nodes := Expr.nodesOf [left, right]
  let cells ← nodes.mapM (cellOf nodes sampleRate)
  return {
    cells := zeroCell :: cells
    values := .replicate (cells.length + 1) 0.0
    constants := keyedSlots nodes
    taps := (Expr.tapsOf nodes).map Tap.tag
    left := slotOf nodes left
    right := slotOf nodes right
    sampleRate := sampleRate }

/-- The outcome of one frame: the cells after it, what they wrote and what they raised. -/
structure Frame where
  cells : List Cell
  values : Array Float32
  raised : List Raised

/-- The scratch at the start of a frame, as wide as the greatest arity. -/
def scratch : Array Float32 := .replicate 5 0.0

/-- Copies the values of some slots into the scratch from place `i` on. Behind them stays what an
earlier cell was handed. -/
def fetch (values : Array Float32) : Nat → List Nat → Array Float32 → Array Float32
  | _, [], scratch => scratch
  | i, slot :: rest, scratch =>
    fetch values (i + 1) rest (scratch.setIfInBounds i (values.getD slot 0.0))

/-- Steps the cells from the one at `slot` on. -/
def step (sampleRate : Float32) :
    List Cell → Nat → Array Float32 → Array Float32 → Except KernelFault Frame
  | [], _, values, _ => .ok ⟨[], values, []⟩
  | ⟨kernel, args⟩ :: rest, slot, values, scratch =>
    let scratch := fetch values 0 args scratch
    match kernel.tick (fun i => scratch.getD i 0.0) sampleRate with
    | .error e => .error e
    | .ok s =>
      match step sampleRate rest (slot + 1) (values.setIfInBounds slot s.value) scratch with
      | .error e => .error e
      | .ok ⟨cells, values, raised⟩ =>
        .ok ⟨⟨s.kernel, args⟩ :: cells, values, s.raised.toList ++ raised⟩

/-- Reports and clears the extremes of every meter. -/
def endBlock (p : Program) : List Raised × Program :=
  let ends := p.cells.map fun c => (c, c.kernel.endBlock)
  (ends.filterMap (·.2.2), { p with cells := ends.map fun (c, k, _) => ⟨k, c.args⟩ })

def slotsOf (p : Program) (key : String) : List Nat :=
  (p.constants.filter (·.1 = key)).map Prod.snd

def setSlot (value : Float32) (slot : Nat) (cells : List Cell) : List Cell :=
  cells.modify slot fun c => { c with kernel := c.kernel.setConst value }

/-- Sets every constant under a key; there may be none. -/
def setConst? (p : Program) (key : String) (value : Float32) : Option Program :=
  match p.slotsOf key with
  | [] => none
  | slots => some { p with cells := slots.foldl (fun cells slot => setSlot value slot cells) p.cells }

def setConst (p : Program) (key : String) (value : Float32) : Program :=
  (p.setConst? key value).getD p

def reset (p : Program) : Program :=
  { p with
    cells := p.cells.map fun c => { c with kernel := c.kernel.reset }
    values := p.values.map fun _ => 0.0 }

/-- The keys that can be set, in order and each once. -/
def constKeys (p : Program) : List String :=
  ((p.constants.map Prod.fst).mergeSort (fun a b => !(b < a))).eraseReps

end Program

end Patchbay
