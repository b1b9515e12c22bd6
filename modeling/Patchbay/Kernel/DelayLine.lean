import Patchbay.Kernel.Fault
import Patchbay.Number.Single

/-!
# Delay line

A circular buffer read at a fractional distance behind the last write, with linear interpolation
between the two neighbouring samples. Feedback is the caller's concern: read, mix, then write.
-/

set_option autoImplicit false

namespace Patchbay

structure DelayLine where
  cells : Array Float32
  next : Nat
  next_lt : next < cells.size

namespace DelayLine

def capacity (d : DelayLine) : Nat := d.cells.size

theorem capacity_pos (d : DelayLine) : 0 < d.capacity := Nat.zero_lt_of_lt d.next_lt

/-- A silent line of `capacity` samples. -/
def new (capacity : Nat) : Except KernelFault DelayLine :=
  if h : 0 < capacity then
    if HasRoom capacity then .ok ⟨Array.replicate capacity 0.0, 0, by simpa using h⟩
    else .error .tooLong
  else .error .emptyDelayLine

theorem new_eq {capacity : Nat} (hpos : 0 < capacity) (hroom : HasRoom capacity) :
    new capacity = .ok ⟨Array.replicate capacity 0.0, 0, by simpa using hpos⟩ := by
  rw [new, dif_pos hpos, if_pos hroom]

theorem new_eq_ok_iff {capacity : Nat} {d : DelayLine} :
    new capacity = .ok d ↔ ∃ hpos : 0 < capacity, HasRoom capacity ∧
      d = ⟨Array.replicate capacity 0.0, 0, by simpa using hpos⟩ := by
  by_cases hpos : 0 < capacity
  · by_cases hroom : HasRoom capacity
    · rw [new_eq hpos hroom]
      exact ⟨fun h => ⟨hpos, hroom, (Except.ok.inj h).symm⟩, fun ⟨_, _, h⟩ => h ▸ rfl⟩
    · rw [new, dif_pos hpos, if_neg hroom]
      exact ⟨nofun, fun ⟨_, h, _⟩ => absurd h hroom⟩
  · rw [new, dif_neg hpos]
    exact ⟨nofun, fun ⟨h, _⟩ => absurd h hpos⟩

/-- The number of samples of a line of some seconds: one more than the whole samples in it. The
count is a 64-bit word, and one more than the greatest is none. -/
def samplesFor (sampleRate seconds : Float32) : Nat :=
  (Single.toNat (sampleRate * Single.max seconds 0.0) + 1) % UInt64.size

def ofTime (sampleRate seconds : Float32) : Except KernelFault DelayLine :=
  new (samplesFor sampleRate seconds)

/-- The cell `k` writes before the most recent one, in the arithmetic of 64-bit words. -/
def index (d : DelayLine) (k : Nat) : Nat :=
  (d.next.toUInt64 + d.capacity.toUInt64 - k.toUInt64 - 1).toNat % d.capacity

theorem index_lt (d : DelayLine) (k : Nat) : d.index k < d.cells.size :=
  Nat.mod_lt _ d.capacity_pos

/-- A delay between nothing and the greatest distance; NaN counts as nothing. -/
def clampDelay (capacity : Nat) (delay : Float32) : Float32 :=
  Single.min (Single.max delay 0.0) (Single.ofNat (capacity - 1))

/-- The sample `delay` samples behind the most recent write, which is the one at 0. -/
def read (d : DelayLine) (delay : Float32) : Float32 :=
  let c := clampDelay d.capacity delay
  let k := Single.toNat c
  let i := d.index k
  let a := d.cells.getD i 0.0
  let b := d.cells.getD ((i + d.capacity - 1) % d.capacity) 0.0
  a + (b - a) * (c - Single.ofNat k)

def write (d : DelayLine) (x : Float32) : DelayLine :=
  match d with
  | ⟨cells, next, h⟩ =>
    let following := (next + 1) % cells.size
    ⟨cells.set next x h, following, by simpa using Nat.mod_lt _ (Nat.zero_lt_of_lt h)⟩

theorem capacity_write (d : DelayLine) (x : Float32) : (d.write x).capacity = d.capacity := by
  simp [write, capacity]

def clear (d : DelayLine) : DelayLine :=
  ⟨Array.replicate d.capacity 0.0, 0, by simpa using d.capacity_pos⟩

theorem capacity_clear (d : DelayLine) : d.clear.capacity = d.capacity := by
  simp [clear, capacity]

end DelayLine

end Patchbay
