import Mathlib
import Patchbay.Kernel.StepSequencer

/-!
# Where a step sequencer stands

A sequencer keeps its position and the level of both inputs at the last sample. All of it can be
told from the samples since the start alone: the position by the number of trigger edges that no
reset edge has come after.
-/

set_option autoImplicit false

namespace Patchbay

namespace StepSequencer

variable {trigger reset : Nat → Float32} {len k : Nat} {loops : Bool} {t : Nat}

/-- A signal is positive after it was not. Before the first sample it was not. -/
def Rises (x : Nat → Float32) : Nat → Prop
  | 0 => 0.0 < x 0
  | t + 1 => 0.0 < x (t + 1) ∧ ¬0.0 < x t

instance (x : Nat → Float32) : DecidablePred (Rises x)
  | 0 => inferInstanceAs (Decidable (0.0 < x 0))
  | t + 1 => inferInstanceAs (Decidable (0.0 < x (t + 1) ∧ ¬0.0 < x t))

/-- The trigger edges among the first `t` samples that no reset edge has come after. -/
def pulses (trigger reset : Nat → Float32) (t : Nat) : Nat :=
  ((Finset.range t).filter fun s => Rises trigger s ∧ ∀ r < t, s < r → ¬Rises reset r).card

/-- The step that a number of pulses selects. -/
def selected (len : Nat) (loops : Bool) (count : Nat) : Option Nat :=
  if count = 0 ∨ len = 0 then none
  else some (if loops then (count - 1) % len else min (count - 1) (len - 1))

theorem pulses_zero : pulses trigger reset 0 = 0 := rfl

/-- A reset edge takes the pulses before it away, not the one of its own sample. -/
theorem pulses_succ : pulses trigger reset (t + 1) =
    (if Rises reset t then 0 else pulses trigger reset t) + if Rises trigger t then 1 else 0 := by
  have hnow : ∀ r < t + 1, t < r → ¬Rises reset r := fun r hr hlt => absurd hr (by omega)
  have hpast (s : Nat) (hs : s ∈ Finset.range t) : (∀ r < t + 1, s < r → ¬Rises reset r) ↔
      (∀ r < t, s < r → ¬Rises reset r) ∧ ¬Rises reset t := by
    rw [Nat.forall_lt_succ_right]
    exact and_congr_right' (imp_iff_right (Finset.mem_range.1 hs))
  have hkept : ((Finset.range t).filter fun s => Rises trigger s ∧
      ∀ r < t + 1, s < r → ¬Rises reset r).card =
        if Rises reset t then 0 else pulses trigger reset t := by
    rw [Finset.filter_congr fun s hs => and_congr_right' (hpast s hs)]
    split
    · simp [*]
    · simp [*, pulses]
  rw [pulses, Finset.range_add_one, Finset.filter_insert]
  by_cases htrigger : Rises trigger t
  · rw [if_pos ⟨htrigger, hnow⟩, Finset.card_insert_of_notMem (by simp), hkept, if_pos htrigger]
  · rw [if_neg fun h => htrigger h.1, hkept, if_neg htrigger, Nat.add_zero]

theorem selected_zero : selected len loops 0 = none := if_pos (.inl rfl)

theorem selected_lt {i : Nat} (h : selected len loops k = some i) : i < len := by
  unfold selected at h
  split at h
  · cases h
  · cases h
    split
    · exact Nat.mod_lt _ (by omega)
    · omega

/-- One more pulse selects the next step. -/
theorem selected_succ (hlen : len ≠ 0) :
    selected len loops (k + 1) = some (nextPosition len loops (selected len loops k)) := by
  cases k with
  | zero => cases loops <;> simp [selected, nextPosition, hlen]
  | succ k =>
    cases loops with
    | true =>
      have hlt : k % len < len := Nat.mod_lt _ (by omega)
      have hwrap : (k + 1) % len = if k % len + 1 < len then k % len + 1 else 0 := by
        rw [← Nat.mod_add_mod]
        split
        · exact Nat.mod_eq_of_lt ‹_›
        · rw [show k % len + 1 = len by omega, Nat.mod_self]
      simpa [selected, nextPosition, hlen] using hwrap
    | false =>
      have hstick : min (k + 1) (len - 1) =
          if min k (len - 1) + 1 < len then min k (len - 1) + 1 else min k (len - 1) := by
        split <;> omega
      simpa [selected, nextPosition, hlen] using hstick

/-- The level of a signal one sample before. -/
def wasHigh (x : Nat → Float32) : Nat → Bool
  | 0 => false
  | t + 1 => high (x t)

theorem rises_iff (x : Nat → Float32) (t : Nat) :
    Rises x t ↔ (high (x t) && !wasHigh x t) = true := by
  cases t <;> simp [Rises, wasHigh, high]

/-- A sequencer after a number of samples. -/
def run (s : StepSequencer) (trigger reset : Nat → Float32) : Nat → StepSequencer
  | 0 => s
  | t + 1 => ((run s trigger reset t).tick (trigger t) (reset t)).2

/-- A sequencer as the samples so far tell it, whatever it has been before. -/
def told (s : StepSequencer) (trigger reset : Nat → Float32) (t : Nat) : StepSequencer :=
  { s with
    position := selected s.steps.length s.loops (pulses trigger reset t)
    triggerHigh := wasHigh trigger t
    resetHigh := wasHigh reset t }

theorem told_zero (s : StepSequencer) : s.told trigger reset 0 = s.reset := by
  rw [told, pulses_zero, selected_zero]
  rfl

theorem move_told (s : StepSequencer) :
    (s.told trigger reset t).move (high (trigger t)) (high (reset t)) =
      selected s.steps.length s.loops (pulses trigger reset (t + 1)) := by
  have hrewound : (if Rises reset t then none
      else selected s.steps.length s.loops (pulses trigger reset t)) =
      selected s.steps.length s.loops (if Rises reset t then 0 else pulses trigger reset t) := by
    split
    · exact selected_zero.symm
    · rfl
  rw [pulses_succ, move]
  simp only [told, Bool.and_eq_true _ (!s.steps.isEmpty), ← rises_iff, hrewound]
  by_cases htrigger : Rises trigger t
  · rcases hsteps : s.steps with - | ⟨x, xs⟩
    · simp [selected]
    · rw [if_pos ⟨htrigger, rfl⟩, if_pos htrigger, selected_succ (List.length_cons ▸ by omega)]
  · rw [if_neg fun h => htrigger h.1, if_neg htrigger, Nat.add_zero]

theorem tick_told (s : StepSequencer) : (s.told trigger reset t).tick (trigger t) (reset t) =
    (if !s.hold && !high (trigger t) then 0.0 else stepValue s.steps
      (selected s.steps.length s.loops (pulses trigger reset (t + 1))),
      s.told trigger reset (t + 1)) := by
  rw [tick, move_told]
  rfl

theorem run_reset (s : StepSequencer) : s.reset.run trigger reset t = s.told trigger reset t := by
  induction t with
  | zero => exact (told_zero s).symm
  | succ t ih => rw [run, ih, tick_told]

theorem stepValue_eq (steps : List Float32) (p : Option Nat) :
    stepValue steps p = p.elim 0.0 fun i => steps.getD i 0.0 := by
  cases p <;> rfl

/-- A sequencer starts new or is rewound to the same state. From there the position after every
sample and the value of that sample follow from the pulses so far. -/
theorem stands_by_pulses :
    (∀ steps hold loops, (new steps hold loops).reset = new steps hold loops) ∧
    ∀ (s : StepSequencer) (trigger reset : Nat → Float32) (t : Nat),
      let p := selected s.steps.length s.loops (pulses trigger reset (t + 1))
      let now := (s.reset.run trigger reset t).tick (trigger t) (reset t)
      now.2.position = p ∧ (∀ i, p = some i → i < s.steps.length) ∧
        now.1 = if s.hold = false ∧ ¬0.0 < trigger t then 0.0
          else p.elim 0.0 fun i => s.steps.getD i 0.0 := by
  refine ⟨fun _ _ _ => rfl, fun s trigger reset t => ?_⟩
  simp only [run_reset, tick_told, stepValue_eq]
  refine ⟨rfl, fun i => selected_lt, ?_⟩
  congr 1
  simp [high]

/-- A trigger that stays high across a reset selects nothing until it rises again. -/
example : pulses (fun t => if t = 3 then 0.0 else 1.0) (fun t => if t = 2 then 1.0 else 0.0) 4 = 0 ∧
    pulses (fun t => if t = 3 then 0.0 else 1.0) (fun t => if t = 2 then 1.0 else 0.0) 5 = 1 := by
  decide

end StepSequencer

end Patchbay
