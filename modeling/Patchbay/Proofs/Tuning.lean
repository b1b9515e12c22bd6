import Mathlib
import Patchbay.Proofs.Number
import Patchbay.Proofs.Stream

/-!
# What a kernel was set up with

Filters and envelopes compute coefficients only when a parameter changes. The coefficients are
nevertheless always those of the parameters, so a kernel that is given all its parameters anew
forgets what they were. What it cannot be given anew is what it was set up with, and this no step
changes: after a reset a kernel goes on like any other of the same origin, unless an input that is
not finite makes it fall back on a parameter from before.
-/

set_option autoImplicit false

namespace Patchbay

namespace Single

theorem eq_of_beq {x y : Float32} (h : (x == y) = true) (hx : (x == 0.0) = false) : x = y := by
  rcases (same_iff x y).1 (.inl h) with heq | ⟨hzero, -⟩
  · exact heq
  · rw [hx] at hzero
    cases hzero

theorem zero_cases {x : Float32} (h : (x == 0.0) = true) : x = 0 ∨ x = -0 := by
  obtain ⟨-, -, heq | ⟨heq, -⟩ | ⟨heq, -⟩⟩ := Float32.beq_iff_ne_nan_and_eq.1 h
  · exact .inl heq
  · exact .inl heq
  · exact .inr heq

theorem ne_zero_of_not_lt {x low : Float32} (hlow : (0 : Float32) < low) (hlow' : (-0 : Float32) < low)
    (h : ¬x < low) : (x == 0.0) = false := by
  by_contra hzero
  rw [Bool.not_eq_false] at hzero
  rcases zero_cases hzero with rfl | rfl
  · exact h hlow
  · exact h hlow'

theorem clamp_ne_zero {x low high : Float32} (hlow : (0 : Float32) < low)
    (hlow' : (-0 : Float32) < low) (hlow0 : (low == 0.0) = false) (hhigh : (high == 0.0) = false) :
    (clamp x low high == 0.0) = false := by
  rw [clamp]
  by_cases hx : x < low
  · simp only [if_pos hx]
    split
    · exact hhigh
    · exact hlow0
  · simp only [if_neg hx]
    split
    · exact hhigh
    · exact ne_zero_of_not_lt hlow hlow' hx

/-- To act only on a change is to act always, if there is nothing to do without one. -/
theorem ite_ne {α : Type} {x old : Float32} {changed kept : α} (hx : (x == 0.0) = false)
    (h : x = old → kept = changed) : (if x != old then changed else kept) = changed := by
  split
  · rfl
  · next hsame => exact h (eq_of_beq (by simpa [bne] using hsame) hx)

end Single

namespace Filter

/-- The coefficients are those of the parameters. -/
def Tuned (f : Filter) : Prop := f.refresh = f

theorem refresh_tuned (f : Filter) : f.refresh.Tuned := rfl

theorem clampCutoff_ne_zero {rate hz c : Float32} (h : clampCutoff rate hz = .ok c) :
    (c == 0.0) = false := by
  rw [clampCutoff] at h
  split at h
  · next hroom =>
    cases h
    have hhigh : (highestCutoff rate == 0.0) = false := by
      by_contra hzero
      rw [Bool.not_eq_false] at hzero
      rcases Single.zero_cases hzero with heq | heq
      · rw [heq] at hroom
        exact absurd hroom (by decide)
      · rw [heq] at hroom
        exact absurd hroom (by decide)
    exact Single.clamp_ne_zero (by decide) (by decide) (by decide) hhigh
  · cases h

theorem setCutoff_of_finite {f : Filter} (h : f.Tuned) {hz : Float32} (hf : hz.isFinite = true) :
    f.setCutoff hz =
      (clampCutoff f.sampleRate hz).map fun c => refresh { f with cutoff := c } := by
  rw [setCutoff, if_pos hf]
  cases hc : clampCutoff f.sampleRate hz with
  | error e => rfl
  | ok c =>
    have hcutoff : (if c != f.cutoff then refresh { f with cutoff := c } else f) =
        refresh { f with cutoff := c } := by
      apply Single.ite_ne (clampCutoff_ne_zero hc)
      rintro rfl
      exact h.symm
    exact congrArg Except.ok hcutoff

theorem setResonance_of_finite {f : Filter} (h : f.Tuned) {q : Float32}
    (hf : q.isFinite = true) :
    f.setResonance q = refresh { f with resonance := Single.clamp q 0.5 20.0 } := by
  have hzero : (Single.clamp q 0.5 20.0 == 0.0) = false :=
    Single.clamp_ne_zero (by decide) (by decide) (by decide) (by decide)
  rw [setResonance, if_pos hf]
  apply Single.ite_ne hzero
  intro hsame
  rw [hsame]
  exact h.symm

theorem setCutoff_tuned {f g : Filter} (h : f.Tuned) {hz : Float32}
    (hg : f.setCutoff hz = .ok g) : g.Tuned := by
  by_cases hf : hz.isFinite = true
  · rw [setCutoff_of_finite h hf] at hg
    cases hc : clampCutoff f.sampleRate hz with
    | error e =>
      rw [hc] at hg
      cases hg
    | ok c =>
      rw [hc] at hg
      cases hg
      exact refresh_tuned _
  · rw [setCutoff, if_neg hf] at hg
    cases hg
    exact h

theorem setResonance_tuned {f : Filter} (h : f.Tuned) (q : Float32) : (f.setResonance q).Tuned := by
  by_cases hf : q.isFinite = true
  · rw [setResonance_of_finite h hf]
    exact refresh_tuned _
  · rw [setResonance, if_neg hf]
    exact h

theorem process_tuned {f : Filter} (h : f.Tuned) (input : Float32) : (f.process input).2.Tuned := by
  obtain ⟨band, low, gain, damping, rate, cutoff, resonance, mode⟩ := f
  simp only [Tuned, refresh, process, respond, Filter.mk.injEq, true_and, and_true] at h ⊢
  exact h

theorem reset_tuned {f : Filter} (h : f.Tuned) : f.reset.Tuned := by
  obtain ⟨band, low, gain, damping, rate, cutoff, resonance, mode⟩ := f
  simp only [Tuned, refresh, reset, Filter.mk.injEq, true_and, and_true] at h ⊢
  exact h

theorem setCutoff_fixed {f g : Filter} {hz : Float32} (h : f.setCutoff hz = .ok g) :
    g.sampleRate = f.sampleRate ∧ g.mode = f.mode := by
  rw [setCutoff] at h
  split at h
  · cases hc : clampCutoff f.sampleRate hz with
    | error e =>
      rw [hc] at h
      cases h
    | ok c =>
      rw [hc] at h
      cases h
      split
      · exact ⟨rfl, rfl⟩
      · exact ⟨rfl, rfl⟩
  · cases h
    exact ⟨rfl, rfl⟩

theorem setResonance_fixed (f : Filter) (q : Float32) :
    (f.setResonance q).sampleRate = f.sampleRate ∧ (f.setResonance q).mode = f.mode := by
  rw [setResonance]
  split
  · dsimp only
    split
    · exact ⟨rfl, rfl⟩
    · exact ⟨rfl, rfl⟩
  · exact ⟨rfl, rfl⟩

/-- A finite cutoff and a finite resonance leave nothing of those before. -/
theorem retune {f : Filter} (h : f.Tuned) {hz q : Float32} (hf : hz.isFinite = true)
    (hq : q.isFinite = true) :
    (f.setCutoff hz).map (·.setResonance q) = (clampCutoff f.sampleRate hz).map fun c =>
      refresh ⟨f.band, f.low, 0.0, 0.0, f.sampleRate, c, Single.clamp q 0.5 20.0, f.mode⟩ := by
  rw [setCutoff_of_finite h hf]
  cases clampCutoff f.sampleRate hz with
  | error e => rfl
  | ok c =>
    rw [Except.map, Except.map, setResonance_of_finite (refresh_tuned _) hq]
    rfl

end Filter

namespace StageTime

/-- The coefficient is that of the time. -/
def Tuned (s : StageTime) (rate : Float32) : Prop := s.refresh rate = s

theorem sanitize_ne_zero (seconds : Float32) : (sanitize seconds == 0.0) = false := by
  rw [sanitize]
  split
  · rw [Single.max]
    split
    · decide
    · split
      · decide
      · next h => exact Single.ne_zero_of_not_lt (by decide) (by decide) h
  · decide

theorem set_of_tuned {s : StageTime} {rate : Float32} (h : s.Tuned rate) (seconds : Float32) :
    s.set rate seconds = new rate (sanitize seconds) := by
  rw [set]
  apply Single.ite_ne (sanitize_ne_zero seconds)
  intro hsame
  rw [hsame]
  exact h.symm

end StageTime

namespace Envelope

structure Tuned (e : Envelope) : Prop where
  attack : e.attack.Tuned e.sampleRate
  decay : e.decay.Tuned e.sampleRate
  release : e.release.Tuned e.sampleRate

theorem setTimes_tuned {e : Envelope} (h : e.Tuned) (attack decay sustain release : Float32) :
    (e.setTimes attack decay sustain release).Tuned := by
  constructor
  · show StageTime.Tuned (e.attack.set e.sampleRate attack) e.sampleRate
    rw [StageTime.set_of_tuned h.attack]
    rfl
  · show StageTime.Tuned (e.decay.set e.sampleRate decay) e.sampleRate
    rw [StageTime.set_of_tuned h.decay]
    rfl
  · show StageTime.Tuned (e.release.set e.sampleRate release) e.sampleRate
    rw [StageTime.set_of_tuned h.release]
    rfl

theorem setTimes_of_finite {e : Envelope} (h : e.Tuned) {sustain : Float32}
    (hs : sustain.isFinite = true) (attack decay release : Float32) :
    e.setTimes attack decay sustain release =
      ⟨e.stage, e.level, e.sampleRate, .new e.sampleRate (StageTime.sanitize attack),
        .new e.sampleRate (StageTime.sanitize decay), .new e.sampleRate (StageTime.sanitize release),
        Single.clamp sustain 0.0 1.0⟩ := by
  rw [setTimes, StageTime.set_of_tuned h.attack, StageTime.set_of_tuned h.decay,
    StageTime.set_of_tuned h.release, if_pos hs]

theorem gateEdge_sampleRate (e : Envelope) (was high : Bool) :
    (Kernel.gateEdge e was high).sampleRate = e.sampleRate := by
  rw [Kernel.gateEdge]
  split
  · rfl
  · split
    · rw [gateOff]
      split
      · rfl
      · rfl
    · rfl

theorem advance_sampleRate (e : Envelope) : e.advance.sampleRate = e.sampleRate := by
  obtain ⟨stage, level, rate, attack, decay, release, sustain⟩ := e
  cases stage <;> simp only [advance] <;> split <;> rfl

theorem advance_tuned {e : Envelope} (h : e.Tuned) : e.advance.Tuned := by
  obtain ⟨stage, level, rate, attack, decay, release, sustain⟩ := e
  cases stage with
  | idle => exact ⟨h.attack, h.decay, h.release⟩
  | sustain => exact ⟨h.attack, h.decay, h.release⟩
  | attack =>
    simp only [advance]
    split
    · exact ⟨h.attack, h.decay, h.release⟩
    · exact ⟨h.attack, h.decay, h.release⟩
  | decay =>
    simp only [advance]
    split
    · exact ⟨h.attack, h.decay, h.release⟩
    · exact ⟨h.attack, h.decay, h.release⟩
  | release =>
    simp only [advance]
    split
    · exact ⟨h.attack, h.decay, h.release⟩
    · exact ⟨h.attack, h.decay, h.release⟩

end Envelope

/-- The inputs of which a node keeps the last value that was finite. -/
def Op.keeps : Op → List Nat
  | .filter _ => [0, 1]
  | .envelope => [2]
  | _ => []

namespace Kernel

/-- What a kernel was set up with, apart from what it can be given anew. -/
def origin : Kernel → Kernel
  | const _ => const 0.0
  | oscillator o => oscillator ⟨0.0, 0.0, o.sampleRate, o.waveform⟩
  | filter f => filter ⟨0.0, 0.0, 0.0, 0.0, f.sampleRate, 0.0, 0.0, f.mode⟩
  | envelope e _ =>
    envelope ⟨.idle, 0.0, e.sampleRate, ⟨0.0, 0.0⟩, ⟨0.0, 0.0⟩, ⟨0.0, 0.0⟩, 0.0⟩ false
  | k => k.reset

def Tuned : Kernel → Prop
  | filter f => f.Tuned
  | envelope e _ => e.Tuned
  | _ => True

theorem setup_delay {maxMs rate : Float32} {key : Option String} {k : Kernel}
    (h : setup (.delay maxMs) key rate = .ok k) : ∃ d, k = delay d ∧ d.clear = d := by
  rw [setup, DelayLine.ofTime] at h
  split at h
  · next d hd =>
    cases h
    obtain ⟨-, -, rfl⟩ := DelayLine.new_eq_ok_iff.1 hd
    exact ⟨_, rfl, by simp [DelayLine.clear, DelayLine.capacity]⟩
  · cases h

theorem setup_tuned {op : Op} {key : Option String} {rate : Float32} {k : Kernel}
    (h : setup op key rate = .ok k) : k.Tuned := by
  cases op with
  | filter mode =>
    cases h
    exact Filter.refresh_tuned ⟨0.0, 0.0, 0.0, 0.0, rate, 1000.0, 0.707, mode⟩
  | envelope =>
    cases h
    exact ⟨rfl, rfl, rfl⟩
  | delay maxMs =>
    obtain ⟨d, rfl, -⟩ := setup_delay h
    trivial
  | tap t =>
    obtain ⟨-, rfl⟩ := setup_tap_iff.1 h
    cases t <;> trivial
  | _ =>
    cases h
    trivial

theorem tick_tuned {k : Kernel} (hk : k.Tuned) {arg : Nat → Float32} {rate : Float32} {s : Step}
    (h : k.tick arg rate = .ok s) : s.kernel.Tuned := by
  cases k with
  | filter f =>
    simp only [tick] at h
    split at h
    · next g hg =>
      cases h
      have htuned := Filter.setResonance_tuned (Filter.setCutoff_tuned hk hg) (arg 1)
      exact Filter.process_tuned htuned (arg 2)
    · cases h
  | envelope e gate =>
    cases h
    apply Envelope.advance_tuned
    have htimes := Envelope.setTimes_tuned hk (arg 0) (arg 1) (arg 2) (arg 3)
    rw [gateEdge]
    split
    · exact ⟨htimes.attack, htimes.decay, htimes.release⟩
    · split
      · rw [Envelope.gateOff]
        split
        · exact htimes
        · exact ⟨htimes.attack, htimes.decay, htimes.release⟩
      · exact htimes
  | scope name size held =>
    simp only [tick] at h
    split at h <;> cases h <;> trivial
  | fft name size held =>
    simp only [tick] at h
    split at h <;> cases h <;> trivial
  | _ =>
    cases h
    trivial

theorem tick_origin {k : Kernel} {arg : Nat → Float32} {rate : Float32} {s : Step}
    (h : k.tick arg rate = .ok s) : s.kernel.origin = k.origin := by
  cases k with
  | filter f =>
    simp only [tick] at h
    split at h
    · next g hg =>
      cases h
      obtain ⟨hrate, hmode⟩ := Filter.setResonance_fixed g (arg 1)
      obtain ⟨hrate', hmode'⟩ := Filter.setCutoff_fixed hg
      show filter ⟨0.0, 0.0, 0.0, 0.0, (g.setResonance (arg 1)).sampleRate, 0.0, 0.0,
        (g.setResonance (arg 1)).mode⟩ = origin (filter f)
      rw [hrate, hmode, hrate', hmode']
      rfl
    · cases h
  | delay d =>
    cases h
    simp [origin, reset, DelayLine.clear, DelayLine.capacity_write]
  | envelope e gate =>
    cases h
    simp only [origin, Envelope.advance_sampleRate, Envelope.gateEdge_sampleRate]
    rfl
  | scope name size held =>
    simp only [tick] at h
    split at h <;> cases h <;> rfl
  | fft name size held =>
    simp only [tick] at h
    split at h <;> cases h <;> rfl
  | _ =>
    cases h
    rfl

theorem endBlock_tuned {k : Kernel} (h : k.Tuned) : k.endBlock.1.Tuned := by
  cases k with
  | meter name x =>
    rw [endBlock]
    split <;> trivial
  | _ => exact h

theorem endBlock_origin (k : Kernel) : k.endBlock.1.origin = k.origin := by
  cases k with
  | meter name x =>
    rw [endBlock]
    split <;> rfl
  | _ => rfl

theorem tick_filter (f : Filter) (arg : Nat → Float32) (rate : Float32) :
    (filter f).tick arg rate =
      ((f.setCutoff (arg 0)).map (·.setResonance (arg 1))).map fun g =>
        ⟨(g.process (arg 2)).1, filter (g.process (arg 2)).2, none⟩ := by
  rw [tick]
  cases f.setCutoff (arg 0) with
  | error e => rfl
  | ok g => rfl

/-- After a reset a kernel steps as a new one of its origin, whatever it has been through, if it
is not made to fall back on a parameter from before. -/
theorem tick_reset {op : Op} {key : Option String} {rate : Float32} {new k : Kernel}
    (hop : ∀ v, op ≠ .const v) (hs : setup op key rate = .ok new) (ho : k.origin = new.origin)
    (hk : k.Tuned) {arg : Nat → Float32} (hfinite : ∀ i ∈ op.keeps, (arg i).isFinite = true) :
    k.reset.tick arg rate = new.tick arg rate := by
  cases op with
  | const v => exact absurd rfl (hop v)
  | binary f =>
    cases hs
    cases k <;> simp only [origin, reset, reduceCtorEq] at ho
    rw [reset, ho]
  | oscillator w =>
    cases hs
    cases k <;> simp only [origin, reset, reduceCtorEq] at ho
    next o =>
      simp only [oscillator.injEq, Oscillator.mk.injEq] at ho
      simp only [reset, tick, Oscillator.reset, Oscillator.setFrequency, ho.2.2]
      rfl
  | noise =>
    cases hs
    cases k <;> simp only [origin, reset, reduceCtorEq] at ho
    rw [reset, ho]
    rfl
  | filter mode =>
    cases hs
    cases k <;> simp only [origin, reset, reduceCtorEq] at ho
    next f =>
      simp only [filter.injEq, Filter.mk.injEq] at ho
      have hcutoff : (arg 0).isFinite = true := hfinite 0 (by simp [Op.keeps])
      have hresonance : (arg 1).isFinite = true := hfinite 1 (by simp [Op.keeps])
      have hf : f.reset.Tuned := Filter.reset_tuned hk
      have hnew : ((Filter.new rate).setMode mode).Tuned :=
        Filter.refresh_tuned ⟨0.0, 0.0, 0.0, 0.0, rate, 1000.0, 0.707, mode⟩
      -- the frame sets both parameters, so those that the reset has left are gone
      rw [reset, tick_filter, tick_filter, Filter.retune hf hcutoff hresonance,
        Filter.retune hnew hcutoff hresonance]
      simp only [Filter.reset, Filter.setMode, Filter.new, Filter.refresh, ho]
  | delay maxMs =>
    obtain ⟨d, rfl, hd⟩ := setup_delay hs
    cases k <;> simp only [origin, reset, reduceCtorEq] at ho
    rw [reset, ho, hd]
  | envelope =>
    cases hs
    cases k <;> simp only [origin, reset, reduceCtorEq] at ho
    next e gate =>
      simp only [envelope.injEq, Envelope.mk.injEq] at ho
      have hs : (arg 2).isFinite = true := hfinite 2 (by simp [Op.keeps])
      have he : e.reset.Tuned := ⟨hk.attack, hk.decay, hk.release⟩
      have hnew : (Envelope.new rate).Tuned := ⟨rfl, rfl, rfl⟩
      simp only [reset, tick, Envelope.setTimes_of_finite he hs, Envelope.setTimes_of_finite hnew hs]
      simp only [Envelope.reset, Envelope.new, ho]
  | steps values hold loops =>
    cases hs
    cases k <;> simp only [origin, reset, reduceCtorEq] at ho
    rw [reset, ho]
    rfl
  | tap t =>
    obtain ⟨-, rfl⟩ := setup_tap_iff.1 hs
    cases t <;> cases k <;> simp only [ofTap, origin, reset, reduceCtorEq] at ho
    all_goals
      rw [reset, ho]
      rfl

end Kernel

end Patchbay
