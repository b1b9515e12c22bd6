/-!
# Kernel faults

A kernel cannot always be set up for a sample rate, and its samples have to find room in memory. The
causes are values, and a run that meets one stops with it.
-/

set_option autoImplicit false

namespace Patchbay

/-- An address space has room for an array of `n` samples of four bytes each. -/
def HasRoom (n : Nat) : Prop := 4 * n < 0x8000000000000000

instance : DecidablePred HasRoom := fun _ => inferInstanceAs (Decidable (_ < _))

inductive KernelFault where
  /-- A delay line without room for a single sample. -/
  | emptyDelayLine
  /-- A delay line or a window that no address space has room for. -/
  | tooLong
  /-- The highest cutoff of a filter, just below half the sample rate, is under the lowest one. -/
  | emptyCutoffRange
  deriving DecidableEq, Repr

end Patchbay
