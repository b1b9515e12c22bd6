import Mathlib
import Patchbay.Proofs.Coefficients
import Patchbay.Proofs.Headroom
import Patchbay.Proofs.Recall

/-!
# The range of a filter

The setters of a filter keep its cutoff between 20 Hz and just below half the rate and its resonance
between its own bounds. A new filter is not asked: its cutoff is 1000 Hz at any rate. So the cutoff
of a filter is in range if the rate has room for 1000 Hz or as soon as the cutoff has been set.
-/

set_option autoImplicit false

namespace Patchbay

namespace Single

variable {x low high : Float32}

theorem le_self (h : x.isNaN = false) : x ≤ x := (le_iff_place x x).2 ⟨h, h, le_refl _⟩

theorem clamp_between (hf : x.isFinite = true) (h : low ≤ high) :
    low ≤ clamp x low high ∧ clamp x low high ≤ high := by
  have hx : x.isNaN = false := by simpa using isNaN_of_finite hf
  obtain ⟨hlow, hhigh, -⟩ := (le_iff_place low high).1 h
  rw [clamp]
  by_cases hbelow : x < low
  · simp only [if_pos hbelow]
    split
    · exact ⟨h, le_self hhigh⟩
    · exact ⟨le_self hlow, h⟩
  · have hfrom : low ≤ x := le_of_not_lt hx hlow hbelow
    simp only [if_neg hbelow]
    split
    · exact ⟨h, le_self hhigh⟩
    · next habove => exact ⟨hfrom, le_of_not_lt hhigh hx habove⟩

/-- Between two finite numbers all are finite. -/
theorem finite_of_between {y : Float32} (hlow : low.isFinite = true) (hhigh : high.isFinite = true)
    (h : low ≤ y) (h' : y ≤ high) : y.isFinite = true := by
  obtain ⟨-, hy, hplace⟩ := (le_iff_place _ _).1 h
  obtain ⟨-, -, hplace'⟩ := (le_iff_place _ _).1 h'
  by_contra hnot
  rw [Bool.not_eq_true] at hnot
  rcases not_finite_cases hnot with rfl | rfl | rfl
  · cases hy
  · rw [eq_infinity (le_antisymm (place_le_infinity high) hplace')] at hhigh
    cases hhigh
  · rw [eq_negInfinity (le_antisymm hplace (negInfinity_le_place low))] at hlow
    cases hlow

theorem clamp_finite (hx : x.isFinite = true) (hlow : low.isFinite = true) (h : low ≤ high) :
    (clamp x low high).isFinite = true := by
  -- an upper bound that is taken stands below something finite
  have hcut (y : Float32) (hy : y.isFinite = true) :
      (if high < y then high else y).isFinite = true := by
    split
    · next habove =>
      obtain ⟨hhigh, hnumber, hplace⟩ := (lt_iff_place _ _).1 habove
      exact finite_of_between hlow hy h ((le_iff_place _ _).2 ⟨hhigh, hnumber, hplace.le⟩)
    · exact hy
  rw [clamp]
  apply hcut
  split
  · exact hlow
  · exact hx

end Single

namespace Filter

/-- Some calls one after the other, up to a fault. -/
def afterAll (f : Filter) : List Call → Except KernelFault Filter
  | [] => .ok f
  | c :: rest => (f.after c).bind fun result => result.2.afterAll rest

/-- A rate with room between the lowest and the highest cutoff. -/
def Roomy (rate : Float32) : Prop := lowestCutoff ≤ highestCutoff rate

namespace Call

/-- A new rate has room for a cutoff. -/
def Roomy : Call → Prop
  | setSampleRate rate => Filter.Roomy rate
  | _ => True

/-- The cutoff is put in range, a new one or the one before. -/
def places : Call → Bool
  | setCutoff hz => hz.isFinite
  | setSampleRate _ => true
  | _ => false

end Call

/-- What holds of a filter from the beginning, all but the upper bound of its cutoff. -/
structure Sound (f : Filter) : Prop where
  room : Roomy f.sampleRate
  finite : f.cutoff.isFinite = true
  cutoff : lowestCutoff ≤ f.cutoff
  resonance : 0.5 ≤ f.resonance ∧ f.resonance ≤ 20.0
  tuned : f.Tuned

theorem Sound.of_eq {f g : Filter} (h : f.Sound) (rate : g.sampleRate = f.sampleRate)
    (cutoff : g.cutoff = f.cutoff) (resonance : g.resonance = f.resonance) (tuned : g.Tuned) :
    g.Sound :=
  ⟨rate ▸ h.room, cutoff ▸ h.finite, cutoff ▸ h.cutoff, resonance ▸ h.resonance, tuned⟩

def InRange (f : Filter) : Prop := f.cutoff ≤ highestCutoff f.sampleRate

theorem new_sound {rate : Float32} (h : Roomy rate) : (new rate).Sound where
  room := h
  finite := by
    show (1000.0 : Float32).isFinite = true
    decide
  cutoff := by
    show lowestCutoff ≤ 1000.0
    decide
  resonance := by
    show (0.5 : Float32) ≤ 0.707 ∧ (0.707 : Float32) ≤ 20.0
    decide
  tuned := new_tuned rate

theorem Sound.below_half {f : Filter} (h : f.Sound) (inRange : f.InRange) :
    f.cutoff < f.sampleRate * 0.5 := by
  obtain ⟨hcutoff, -, hplace⟩ := (Single.le_iff_place _ _).1 inRange
  by_cases hrate : f.sampleRate.isFinite = true
  · obtain ⟨-, hnumber, hless⟩ := (Single.lt_iff_place _ _).1 (Single.mul_lt_half hrate h.room)
    exact (Single.lt_iff_place _ _).2 ⟨hcutoff, hnumber, hplace.trans_lt hless⟩
  · rw [Bool.not_eq_true] at hrate
    have hroom : lowestCutoff ≤ highestCutoff f.sampleRate := h.room
    rcases Single.not_finite_cases hrate with heq | heq | heq
    · exact absurd (heq ▸ hroom) (by decide)
    · rw [heq, show Single.infinity * 0.5 = Single.infinity by rfl]
      refine (Single.lt_iff_place _ _).2
        ⟨hcutoff, by decide, (Single.place_le_infinity _).lt_of_ne fun hplace => ?_⟩
      have hfinite := h.finite
      rw [Single.eq_infinity hplace] at hfinite
      cases hfinite
    · exact absurd (heq ▸ hroom) (by decide)

/-- A cutoff put in range at some rate, the coefficients computed. -/
theorem Sound.place {f : Filter} (h : f.Sound) {rate hz : Float32} (room : Roomy rate)
    (hf : hz.isFinite = true) :
    ∃ c, clampCutoff rate hz = .ok c ∧
      (refresh { f with sampleRate := rate, cutoff := c }).Sound ∧
      (refresh { f with sampleRate := rate, cutoff := c }).InRange := by
  obtain ⟨hlow, hhigh⟩ := Single.clamp_between hf room
  have hfinite := Single.clamp_finite hf (by decide) room
  exact ⟨Single.clamp hz lowestCutoff (highestCutoff rate), if_pos room,
    ⟨room, hfinite, hlow, h.resonance, refresh_tuned _⟩, hhigh⟩

/-- A call keeps the cutoff as it is or puts it in range. -/
theorem after_sound {f : Filter} (h : f.Sound) {c : Call} (hc : c.Roomy) :
    ∃ output g, f.after c = .ok (output, g) ∧ g.Sound ∧
      if c.places then g.InRange else g.cutoff = f.cutoff ∧ g.sampleRate = f.sampleRate := by
  cases c with
  | setCutoff hz =>
    rw [after]
    by_cases hf : hz.isFinite = true
    · obtain ⟨c, hclamp, hsound, hrange⟩ := h.place h.room hf
      rw [setCutoff_of_finite h.tuned hf, hclamp]
      exact ⟨none, _, rfl, hsound, by rwa [Call.places, if_pos hf]⟩
    · rw [setCutoff, if_neg hf]
      exact ⟨none, f, rfl, h, by rw [Call.places, if_neg hf]; exact ⟨rfl, rfl⟩⟩
  | setResonance q =>
    rw [after]
    by_cases hf : q.isFinite = true
    · have hbounds : 0.5 ≤ Single.clamp q 0.5 20.0 ∧ Single.clamp q 0.5 20.0 ≤ 20.0 :=
        Single.clamp_between hf (by decide)
      rw [setResonance_of_finite h.tuned hf]
      exact ⟨none, _, rfl, ⟨h.room, h.finite, h.cutoff, hbounds, refresh_tuned _⟩, rfl, rfl⟩
    · rw [setResonance, if_neg hf]
      exact ⟨none, f, rfl, h, rfl, rfl⟩
  | setMode mode =>
    exact ⟨none, _, rfl, h.of_eq rfl rfl rfl (setMode_tuned h.tuned mode), rfl, rfl⟩
  | setSampleRate rate =>
    obtain ⟨c, hclamp, hsound, hrange⟩ := h.place hc h.finite
    rw [after, setSampleRate_eq, hclamp]
    exact ⟨none, _, rfl, hsound, hrange⟩
  | reset => exact ⟨none, _, rfl, h.of_eq rfl rfl rfl (reset_tuned h.tuned), rfl, rfl⟩
  | process input =>
    exact ⟨_, _, rfl, h.of_eq rfl rfl rfl (process_tuned h.tuned input), rfl, rfl⟩

/-- Once the cutoff is in range it stays there. -/
theorem afterAll_sound {f : Filter} (h : f.Sound) (calls : List Call)
    (rooms : ∀ c ∈ calls, c.Roomy) :
    ∃ g, f.afterAll calls = .ok g ∧ g.Sound ∧
      (g.InRange ↔ f.InRange ∨ ∃ c ∈ calls, c.places = true) := by
  induction calls generalizing f with
  | nil => exact ⟨f, rfl, h, by simp⟩
  | cons c calls ih =>
    obtain ⟨hc, hrest⟩ := List.forall_mem_cons.1 rooms
    obtain ⟨output, next, hafter, hnext, hcutoff⟩ := after_sound h hc
    obtain ⟨g, hg, hsound, hiff⟩ := ih hnext hrest
    refine ⟨g, by rw [afterAll, hafter]; exact hg, hsound, ?_⟩
    rw [hiff, List.exists_mem_cons_iff]
    by_cases hp : c.places = true
    · rw [if_pos hp] at hcutoff
      simp [hcutoff, hp]
    · rw [if_neg hp] at hcutoff
      rw [InRange, InRange, hcutoff.1, hcutoff.2]
      simp [hp]

/-- A filter at a rate with room for a cutoff takes every call, and its parameters are in range,
all but a cutoff of 1000 Hz that is too much for the rate and that no call has put in range since.
In range the cutoff is below half the rate. -/
theorem afterAll_range {rate : Float32} (room : lowestCutoff ≤ highestCutoff rate)
    (calls : List Call)
    (rooms : ∀ rate', .setSampleRate rate' ∈ calls → lowestCutoff ≤ highestCutoff rate') :
    ∃ f, (new rate).afterAll calls = .ok f ∧ f.Tuned ∧ lowestCutoff ≤ f.cutoff ∧
      0.5 ≤ f.resonance ∧ f.resonance ≤ 20.0 ∧
      (f.cutoff ≤ highestCutoff f.sampleRate ↔
        1000.0 ≤ highestCutoff rate ∨ ∃ c ∈ calls, c.places = true) ∧
      (f.cutoff ≤ highestCutoff f.sampleRate → f.cutoff < f.sampleRate * 0.5) := by
  have hrooms : ∀ c ∈ calls, c.Roomy := by
    intro c hc
    cases c with
    | setSampleRate rate' => exact rooms rate' hc
    | _ => trivial
  obtain ⟨f, hf, hsound, hiff⟩ := afterAll_sound (new_sound room) calls hrooms
  exact ⟨f, hf, hsound.tuned, hsound.cutoff, hsound.resonance.1, hsound.resonance.2, hiff,
    hsound.below_half⟩

/-- At 1000 Hz a cutoff that is ignored leaves the filter out of range, and the next one does not. -/
theorem afterAll_range_thousand :
    (∃ f, (new 1000.0).afterAll [.setCutoff Single.nan, .setResonance 100.0] = .ok f ∧
      lowestCutoff ≤ f.cutoff ∧ f.resonance ≤ 20.0 ∧ ¬f.cutoff ≤ highestCutoff f.sampleRate) ∧
    ∃ f, (new 1000.0).afterAll [.setCutoff Single.nan, .setResonance 100.0, .setCutoff 2000.0] =
      .ok f ∧ f.cutoff ≤ highestCutoff f.sampleRate ∧ f.cutoff < f.sampleRate * 0.5 := by
  have room : lowestCutoff ≤ highestCutoff 1000.0 := by decide
  constructor
  · obtain ⟨f, hf, -, hcutoff, -, hresonance, hiff, -⟩ := afterAll_range room
      [.setCutoff Single.nan, .setResonance 100.0] (by simp)
    exact ⟨f, hf, hcutoff, hresonance, fun h => absurd (hiff.1 h) (by decide)⟩
  · obtain ⟨f, hf, -, -, -, -, hiff, hbelow⟩ := afterAll_range room
      [.setCutoff Single.nan, .setResonance 100.0, .setCutoff 2000.0] (by simp)
    have inRange := hiff.2 (.inr ⟨.setCutoff 2000.0, by simp, by decide⟩)
    exact ⟨f, hf, inRange, hbelow inRange⟩

/-- A new filter at a rate that has room for 20 Hz alone. -/
theorem new_out_of_range :
    lowestCutoff ≤ highestCutoff (Float32.ofBits 0x422343eb) ∧
      ¬(new (Float32.ofBits 0x422343eb)).cutoff ≤ highestCutoff (Float32.ofBits 0x422343eb) ∧
      ∃ f, (new (Float32.ofBits 0x422343eb)).afterAll [.reset] = .ok f ∧
        ¬f.cutoff ≤ highestCutoff f.sampleRate := by
  refine ⟨by decide, ?_, _, rfl, ?_⟩
  · show ¬(1000.0 : Float32) ≤ highestCutoff (Float32.ofBits 0x422343eb)
    decide
  · show ¬(1000.0 : Float32) ≤ highestCutoff (Float32.ofBits 0x422343eb)
    decide

end Filter

end Patchbay
