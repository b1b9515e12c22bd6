import Mathlib
import Patchbay.Proofs.Fallible
import Patchbay.Proofs.Tuning

/-!
# Coefficients kept and coefficients computed anew

A setter computes a coefficient only if its parameter has changed. Nobody can tell: a unit that
stores every parameter it is given and computes all of its coefficients anew after every setter
answers each call the same, at any rate, for parameters that are ignored as well as for those that
are cut off, and it stops at the same call if there is a fault.
-/

set_option autoImplicit false

namespace Patchbay

/-- What some calls answer one after the other, up to a fault. -/
def answers {σ κ α ε : Type} (serve : σ → κ → Except ε (α × σ)) :
    σ → List κ → Except ε (List α)
  | _, [] => .ok []
  | s, c :: rest =>
    match serve s c with
    | .error e => .error e
    | .ok (a, s) => (answers serve s rest).map (a :: ·)

/-- Two ways to serve a call that differ in no state that is met cannot be told apart. -/
theorem answers_congr {σ κ α ε : Type} {serve serve' : σ → κ → Except ε (α × σ)}
    {P : σ → Prop} (kept : ∀ s c a s', P s → serve s c = .ok (a, s') → P s')
    (same : ∀ s c, P s → serve' s c = serve s c) (calls : List κ) {s : σ} (h : P s) :
    answers serve' s calls = answers serve s calls := by
  induction calls generalizing s with
  | nil => rfl
  | cons c calls ih =>
    rw [answers, answers, same s c h]
    cases hs : serve s c with
    | error e => rfl
    | ok result => exact congrArg (Except.map (result.1 :: ·)) (ih (kept s c _ _ h hs))

namespace Envelope

inductive Call where
  | setTimes (attack decay sustain release : Float32)
  | setSampleRate (rate : Float32)
  | gateOn
  | gateOff
  | reset
  | advance

/-- What can be asked of an envelope; the level after an advance is its output. -/
structure Report where
  stage : EnvelopeStage
  level : Float32
  sustain : Float32

def report (e : Envelope) : Report := ⟨e.stage, e.level, e.sustain⟩

def after (e : Envelope) : Call → Envelope
  | .setTimes attack decay sustain release => e.setTimes attack decay sustain release
  | .setSampleRate rate => e.setSampleRate rate
  | .gateOn => e.gateOn
  | .gateOff => e.gateOff
  | .reset => e.reset
  | .advance => e.advance

/-- Every coefficient from its time and the rate. -/
def refresh (e : Envelope) : Envelope :=
  { e with
    attack := e.attack.refresh e.sampleRate
    decay := e.decay.refresh e.sampleRate
    release := e.release.refresh e.sampleRate }

/-- The same without a look at what was there before: the times are stored and then all
coefficients are computed. -/
def afterAnew (e : Envelope) : Call → Envelope
  | .setTimes attack decay sustain release => refresh
    { e with
      attack := ⟨StageTime.sanitize attack, e.attack.coefficient⟩
      decay := ⟨StageTime.sanitize decay, e.decay.coefficient⟩
      release := ⟨StageTime.sanitize release, e.release.coefficient⟩
      sustain := if sustain.isFinite then Single.clamp sustain 0.0 1.0 else e.sustain }
  | .setSampleRate rate => refresh { e with sampleRate := rate }
  | c => e.after c

/-- Serves calls with one of the two. No call on an envelope is a fault. -/
def served (step : Envelope → Call → Envelope) (e : Envelope) (c : Call) :
    Except KernelFault (Report × Envelope) :=
  .ok ((step e c).report, step e c)

theorem new_tuned (rate : Float32) : (new rate).Tuned := ⟨rfl, rfl, rfl⟩

theorem afterAnew_eq {e : Envelope} (h : e.Tuned) (c : Call) : e.afterAnew c = e.after c := by
  cases c with
  | setTimes attack decay sustain release =>
    rw [after, setTimes, StageTime.set_of_tuned h.attack, StageTime.set_of_tuned h.decay,
      StageTime.set_of_tuned h.release]
    rfl
  | setSampleRate rate => rfl
  | gateOn => rfl
  | gateOff => rfl
  | reset => rfl
  | advance => rfl

theorem after_tuned {e : Envelope} (h : e.Tuned) (c : Call) : (e.after c).Tuned := by
  cases c with
  | setTimes attack decay sustain release => exact setTimes_tuned h attack decay sustain release
  | setSampleRate rate => exact ⟨rfl, rfl, rfl⟩
  | gateOn => exact ⟨h.attack, h.decay, h.release⟩
  | gateOff =>
    rw [after, gateOff]
    split
    · exact h
    · exact ⟨h.attack, h.decay, h.release⟩
  | reset => exact ⟨h.attack, h.decay, h.release⟩
  | advance => exact advance_tuned h

end Envelope

namespace Filter

inductive Call where
  | setCutoff (hz : Float32)
  | setResonance (q : Float32)
  | setMode (mode : FilterMode)
  | setSampleRate (rate : Float32)
  | reset
  | process (input : Float32)

/-- What a call on a filter yields, and what can be asked of the filter after it. -/
structure Report where
  output : Option Float32
  cutoff : Float32
  resonance : Float32
  mode : FilterMode

def after (f : Filter) : Call → Except KernelFault (Option Float32 × Filter)
  | .setCutoff hz => (f.setCutoff hz).map (none, ·)
  | .setResonance q => .ok (none, f.setResonance q)
  | .setMode mode => .ok (none, f.setMode mode)
  | .setSampleRate rate => (f.setSampleRate rate).map (none, ·)
  | .reset => .ok (none, f.reset)
  | .process input => .ok (some (f.process input).1, (f.process input).2)

/-- The same without a look at what was there before: a setter stores what it is given, if it is
given anything, and computes all coefficients. -/
def afterAnew (f : Filter) : Call → Except KernelFault (Option Float32 × Filter)
  | .setCutoff hz =>
    if hz.isFinite then
      (clampCutoff f.sampleRate hz).map fun c => (none, refresh { f with cutoff := c })
    else .ok (none, f.refresh)
  | .setResonance q =>
    if q.isFinite then .ok (none, refresh { f with resonance := Single.clamp q 0.5 20.0 })
    else .ok (none, f.refresh)
  | .setMode mode => .ok (none, refresh { f with mode := mode })
  | .setSampleRate rate => (clampCutoff rate f.cutoff).map fun c =>
    (none, refresh { f with sampleRate := rate, cutoff := c })
  | c => f.after c

/-- Serves calls with one of the two. -/
def served (step : Filter → Call → Except KernelFault (Option Float32 × Filter)) (f : Filter)
    (c : Call) : Except KernelFault (Report × Filter) :=
  (step f c).map fun (output, g) => (⟨output, g.cutoff, g.resonance, g.mode⟩, g)

theorem new_tuned (rate : Float32) : (new rate).Tuned := refresh_tuned _

theorem setMode_tuned {f : Filter} (h : f.Tuned) (mode : FilterMode) : (f.setMode mode).Tuned := by
  obtain ⟨band, low, gain, damping, rate, cutoff, resonance, old⟩ := f
  simp only [Tuned, refresh, setMode, Filter.mk.injEq, true_and, and_true] at h ⊢
  exact h

theorem setSampleRate_eq (f : Filter) (rate : Float32) :
    f.setSampleRate rate =
      (clampCutoff rate f.cutoff).map fun c => refresh { f with sampleRate := rate, cutoff := c } := by
  rw [setSampleRate]
  cases clampCutoff rate f.cutoff <;> rfl

theorem setSampleRate_tuned {f g : Filter} {rate : Float32} (hg : f.setSampleRate rate = .ok g) :
    g.Tuned := by
  rw [setSampleRate_eq] at hg
  obtain ⟨c, -, rfl⟩ := map_eq_ok hg
  exact refresh_tuned _

theorem afterAnew_eq {f : Filter} (h : f.Tuned) (c : Call) : f.afterAnew c = f.after c := by
  cases c with
  | setCutoff hz =>
    rw [afterAnew, after]
    by_cases hf : hz.isFinite = true
    · rw [if_pos hf, setCutoff_of_finite h hf]
      cases clampCutoff f.sampleRate hz <;> rfl
    · -- nothing is stored, and computing the coefficients of a coherent filter changes nothing
      rw [if_neg hf, setCutoff, if_neg hf, h]
      rfl
  | setResonance q =>
    rw [afterAnew, after]
    by_cases hf : q.isFinite = true
    · rw [if_pos hf, setResonance_of_finite h hf]
    · rw [if_neg hf, setResonance, if_neg hf, h]
  | setMode mode =>
    have hmode : refresh { f with mode := mode } = f.setMode mode := setMode_tuned h mode
    rw [afterAnew, after, hmode]
  | setSampleRate rate =>
    rw [afterAnew, after, setSampleRate_eq]
    cases clampCutoff rate f.cutoff <;> rfl
  | reset => rfl
  | process input => rfl

theorem after_tuned {f g : Filter} (h : f.Tuned) {c : Call} {output : Option Float32}
    (hg : f.after c = .ok (output, g)) : g.Tuned := by
  cases c with
  | setCutoff hz =>
    obtain ⟨next, hnext, heq⟩ := map_eq_ok hg
    cases heq
    exact setCutoff_tuned h hnext
  | setResonance q =>
    cases hg
    exact setResonance_tuned h q
  | setMode mode =>
    cases hg
    exact setMode_tuned h mode
  | setSampleRate rate =>
    obtain ⟨next, hnext, heq⟩ := map_eq_ok hg
    cases heq
    exact setSampleRate_tuned hnext
  | reset =>
    cases hg
    exact reset_tuned h
  | process input =>
    cases hg
    exact process_tuned h input

end Filter

/-- Nothing that an envelope or a filter yields or reports shows when its coefficients are
computed. -/
theorem answers_afterAnew (rate : Float32) :
    (∀ calls, answers (Envelope.served Envelope.afterAnew) (.new rate) calls =
      answers (Envelope.served Envelope.after) (.new rate) calls) ∧
    ∀ calls, answers (Filter.served Filter.afterAnew) (.new rate) calls =
      answers (Filter.served Filter.after) (.new rate) calls := by
  constructor
  · intro calls
    refine answers_congr (P := Envelope.Tuned) ?_ ?_ calls (Envelope.new_tuned rate)
    · rintro e c a e' he ⟨⟩
      exact Envelope.after_tuned he c
    · intro e c he
      rw [Envelope.served, Envelope.served, Envelope.afterAnew_eq he]
  · intro calls
    refine answers_congr (P := Filter.Tuned) ?_ ?_ calls (Filter.new_tuned rate)
    · intro f c a g hf hs
      obtain ⟨⟨output, next⟩, hnext, heq⟩ := map_eq_ok hs
      cases heq
      exact Filter.after_tuned hf hnext
    · intro f c hf
      rw [Filter.served, Filter.served, Filter.afterAnew_eq hf]

end Patchbay
