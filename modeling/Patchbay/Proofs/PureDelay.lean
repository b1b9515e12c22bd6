import Mathlib
import Patchbay.Proofs.Echo
import Patchbay.Proofs.Spoiling

/-!
# A delay without feedback

A delay of whole samples still computes with the sample beside the one it hears, at weight zero, and
with what it feeds back, at gain zero. A zero silences a number only. So as long as the two samples
have a finite difference the input comes out late and otherwise unchanged; where they have none a
NaN is heard, is written back, and comes round for ever.
-/

set_option autoImplicit false

namespace Patchbay

variable {rate maxMs feedback : Float32} {n lag : Nat} {x y w : Nat → Float32}
  {t : Nat}

/-- An input as it is written into a line that nothing is fed back to. -/
def dry (x : Nat → Float32) : Nat → Float32 := fun t => flushDenormal (x t)

theorem ago_congr {w w' : Nat → Float32} {k : Nat} (h : k ≤ t → w (t - k) = w' (t - k)) :
    ago w t k = ago w' t k := by
  unfold ago
  split
  · exact h ‹_›
  · rfl

/-- The sample that is heard and the one beside it have no finite difference. -/
def Jump (n lag : Nat) (x : Nat → Float32) (t : Nat) : Prop :=
  (ago (dry x) t (lag % n + 1) - ago (dry x) t lag).isFinite = false

/-- A jump has come round, by any number of ways through either of the two samples. -/
def Spoilt (n lag : Nat) (x : Nat → Float32) (t : Nat) : Prop :=
  ∃ s rounds asides, Jump n lag x s ∧ s + rounds * lag + asides * (lag % n + 1) = t

theorem spoilt_iff : Spoilt n lag x t ↔ Jump n lag x t ∨
    (lag ≤ t ∧ Spoilt n lag x (t - lag)) ∨
    (lag % n + 1 ≤ t ∧ Spoilt n lag x (t - (lag % n + 1))) := by
  constructor
  · rintro ⟨s, rounds, asides, hs, rfl⟩
    rcases rounds with - | rounds
    · rcases asides with - | asides
      · rw [Nat.zero_mul, Nat.zero_mul]
        exact .inl hs
      · rw [Nat.succ_mul]
        exact .inr (.inr ⟨by omega, s, 0, asides, hs, by omega⟩)
    · rw [Nat.succ_mul]
      exact .inr (.inl ⟨by omega, s, rounds, asides, hs, by omega⟩)
  · rintro (hs | ⟨hle, s, rounds, asides, hs, heq⟩ | ⟨hle, s, rounds, asides, hs, heq⟩)
    · exact ⟨t, 0, 0, hs, by omega⟩
    · exact ⟨s, rounds + 1, asides, hs, by rw [Nat.succ_mul]; omega⟩
    · exact ⟨s, rounds, asides + 1, hs, by rw [Nat.succ_mul]; omega⟩

/-- A delay without feedback, as what it writes and hears. -/
structure Unfed (n lag : Nat) (feedback : Float32) (x y w : Nat → Float32) : Prop where
  zero : (feedback == 0.0) = true
  written : ∀ t, w t = flushDenormal (x t + feedback * y t)
  heard : ∀ t, y t = ago w t lag + (ago w t (lag % n + 1) - ago w t lag) * 0.0

namespace Unfed

variable (h : Unfed n lag feedback x y w)

include h

theorem written_number (hy : (y t).isFinite = true) : w t = dry x t := by
  rw [h.written, dry]
  exact Single.flushDenormal_same
    (Single.same_add_of_zero _ (Single.mul_zero_of_number hy h.zero).2)

theorem written_nan (hy : y t = Single.nan) : w t = Single.nan := by
  rw [h.written, (Single.mul_zero_of_not (by rw [hy]; decide) h.zero).2, Single.add_nan]
  decide

theorem heard_number (hd : (ago w t (lag % n + 1) - ago w t lag).isFinite = true) :
    (y t).isFinite = true ∧ Single.Same (y t) (ago w t lag) := by
  have hsame : Single.Same (y t) (ago w t lag) := by
    rw [h.heard]
    exact Single.same_add_of_zero _ (Single.mul_zero_of_number hd (by decide)).1
  exact ⟨Single.finite_of_same hsame (Single.finite_of_sub hd).2, hsame⟩

theorem heard_nan (hd : (ago w t (lag % n + 1) - ago w t lag).isFinite = false) :
    y t = Single.nan := by
  rw [h.heard, (Single.mul_zero_of_not hd (by decide)).1, Single.add_nan]

theorem heard_nan_of {k : Nat} (hk : k = lag ∨ k = lag % n + 1) (hle : k ≤ t)
    (hy : y (t - k) = Single.nan) : y t = Single.nan := by
  have hago : ago w t k = Single.nan := by
    rw [ago, if_pos hle, h.written_nan hy]
  refine h.heard_nan ?_
  by_contra hd
  obtain ⟨haside, hlag⟩ := Single.finite_of_sub (Bool.eq_true_of_not_eq_false hd)
  rcases hk with rfl | rfl
  · rw [hago] at hlag
    exact absurd hlag (by decide)
  · rw [hago] at haside
    exact absurd haside (by decide)

theorem ago_number {k : Nat} (hk : k ≤ t → (y (t - k)).isFinite = true) :
    ago w t k = ago (dry x) t k :=
  ago_congr fun hle => h.written_number (hk hle)

/-- What comes out is NaN where it is spoilt, and the input where it is not. -/
theorem hears (hlag : 1 ≤ lag) (t : Nat) : (Spoilt n lag x t → y t = Single.nan) ∧
    (¬Spoilt n lag x t → (y t).isFinite = true ∧ Single.Same (y t) (ago (dry x) t lag)) := by
  induction t using Nat.strong_induction_on with
  | _ t ih =>
    rw [spoilt_iff]
    by_cases hround : lag ≤ t ∧ Spoilt n lag x (t - lag)
    · have hnan := h.heard_nan_of (.inl rfl) hround.1 ((ih _ (by omega)).1 hround.2)
      exact ⟨fun _ => hnan, fun hclean => absurd (.inr (.inl hround)) hclean⟩
    by_cases haside : lag % n + 1 ≤ t ∧ Spoilt n lag x (t - (lag % n + 1))
    · have hnan := h.heard_nan_of (.inr rfl) haside.1 ((ih _ (by omega)).1 haside.2)
      exact ⟨fun _ => hnan, fun hclean => absurd (.inr (.inr haside)) hclean⟩
    have hheard := h.ago_number (k := lag) fun hle =>
      ((ih _ (by omega)).2 fun hs => hround ⟨hle, hs⟩).1
    have hbeside := h.ago_number (k := lag % n + 1) fun hle =>
      ((ih _ (by omega)).2 fun hs => haside ⟨hle, hs⟩).1
    constructor
    · rintro (hjump | hs | hs)
      · exact h.heard_nan (by rwa [hheard, hbeside])
      · exact absurd hs hround
      · exact absurd hs haside
    · intro hclean
      rw [← hheard]
      apply h.heard_number
      rw [hheard, hbeside]
      exact Bool.eq_true_of_not_eq_false fun hjump => hclean (.inl hjump)

end Unfed

/-- Where an input is not a number, there is a jump as soon as it would be heard. -/
theorem jump_of_not {m : Nat} (h : (x m).isFinite = false) : Jump n lag x (m + lag) := by
  rw [Jump]
  by_contra hd
  have hheard := (Single.finite_of_sub (Bool.eq_true_of_not_eq_false hd)).2
  rw [ago, if_pos (Nat.le_add_left lag m), Nat.add_sub_cancel, dry, Single.flushDenormal_of_not h, h]
    at hheard
  cases hheard

/-- Between moderate samples there is no jump. -/
theorem not_jump_of_moderate (h : ∀ t, Single.Moderate (x t)) (t : Nat) : ¬Jump n lag x t := by
  have hago (k : Nat) : Single.Moderate (ago (dry x) t k) := by
    rw [ago]
    split
    · exact (h _).flushDenormal
    · exact ⟨by decide, by decide⟩
  rw [Jump, (hago _).sub (hago _)]
  exact Bool.noConfusion

open DelayLine Kernel

/-- A line of any size that memory has room for hears a time of whole samples that late. -/
theorem delayed_unfed (room : (Op.delay maxMs).Admits rate) (hpos : 1 ≤ lag) (hlag : lag < 2 ^ 24)
    (hle : lag ≤ samplesFor rate (maxMs / 1000.0)) {time : Float32}
    (htime : msToSamples time rate = Single.ofNat lag) (hzero : (feedback == 0.0) = true)
    (held : Settings) (key : Option String) (x : Nat → Float32) :
    ∃ y w, delayed rate maxMs held key time feedback (.of x) = .of y ∧
      Unfed (samplesFor rate (maxMs / 1000.0)) lag feedback x y w := by
  obtain ⟨-, hroom, hshort⟩ := samplesFor_sized room
  have hwords : 4 * samplesFor rate (maxMs / 1000.0) < 2 ^ 63 := hroom
  have hclamp : clampDelay (samplesFor rate (maxMs / 1000.0)) (delayDistance time rate) =
      Single.ofNat (lag - 1) := by
    rw [delayDistance_ofNat hpos hlag htime]
    exact clampDelay_whole (by omega) (by omega) (by omega) hshort
  obtain ⟨y, hy, w, hecho⟩ := delayed_whole_of_short rfl hroom hshort held key
    (by omega) (by omega) hclamp feedback x
  rw [Nat.sub_add_cancel hpos] at hecho
  exact ⟨y, w, hy, hzero, fun t => (hecho t).1, fun t => (hecho t).2⟩

/-- Without feedback a time of whole samples gives an input back that many frames late, as long as
its samples have finite differences; moderate samples have. Where a sample and the one beside it have
none, a NaN is heard, and again after every way round through either of them. A sample that is not a
number is never heard: from the frame where it would be a NaN comes round for ever. -/
theorem delay_unfed (room : (Op.delay maxMs).Admits rate) (hpos : 1 ≤ lag) (hlag : lag < 2 ^ 24)
    (hle : lag ≤ samplesFor rate (maxMs / 1000.0)) {time : Float32}
    (htime : msToSamples time rate = Single.ofNat lag) (hzero : (feedback == 0.0) = true)
    (x : Nat → Float32) :
    ∃ y, (∀ held key, delayed rate maxMs held key time feedback (.of x) = .of y) ∧
      (∀ held labels input, input.stream rate held = .of x →
        (Expr.delayedBy maxMs time feedback labels input).stream rate held = .of y) ∧
      (∀ t, (Spoilt (samplesFor rate (maxMs / 1000.0)) lag x t → (y t).isNaN = true) ∧
        (¬Spoilt (samplesFor rate (maxMs / 1000.0)) lag x t →
          Single.Same (y t) (ago (dry x) t lag))) ∧
      ((∀ t, Single.Moderate (x t)) → ∀ t, Single.Same (y t) (ago (dry x) t lag)) ∧
      ∀ m, (x m).isFinite = false → ∀ k, (y (m + (k + 1) * lag)).isNaN = true := by
  obtain ⟨y, w, hy, hunfed⟩ := delayed_unfed room hpos hlag hle htime hzero quiet none x
  have hnan {t : Nat} (hs : Spoilt (samplesFor rate (maxMs / 1000.0)) lag x t) :
      (y t).isNaN = true := by
    rw [(hunfed.hears hpos t).1 hs]
    decide
  refine ⟨y, fun held key => hy, fun held labels input hinput => ?_, fun t =>
    ⟨hnan, fun hclean => ((hunfed.hears hpos t).2 hclean).2⟩, fun hmoderate t => ?_,
    fun m hm k => hnan ?_⟩
  · rw [stream_delayedBy, hinput]
    exact hy
  · refine ((hunfed.hears hpos t).2 ?_).2
    rintro ⟨s, -, -, hjump, -⟩
    exact not_jump_of_moderate hmoderate s hjump
  · exact ⟨m + lag, k, 0, jump_of_not hm, by rw [Nat.succ_mul]; omega⟩

/-- One infinite sample, two frames late: a NaN is heard at its frame and every second one from
there on. -/
theorem delay_unfed_infinite : ∃ y,
    delayed 1000.0 10.0 quiet none 2.0 0.0 (.of fun t => if t = 1 then Single.infinity else 1.0) =
      .of y ∧ ∀ k, (y (1 + (k + 1) * 2)).isNaN = true := by
  obtain ⟨y, hy, -, -, -, hnan⟩ := @delay_unfed 1000.0 10.0 0.0 2 (by decide) (by decide) (by decide)
    (by decide) 2.0 (by decide) (by decide) fun t => if t = 1 then Single.infinity else 1.0
  exact ⟨y, hy quiet none, hnan 1 (by decide)⟩

/-- No sample after the infinite one is heard again. -/
theorem delay_unfed_spoils : samplesFor 1000.0 (10.0 / 1000.0) = 11 ∧
    msToSamples 2.0 1000.0 = 2.0 ∧
    (List.range 9).map (fun t => (delayed 1000.0 10.0 quiet none 2.0 0.0
      (.of fun t => if t = 1 then Single.infinity else 1.0) t).map Float32.isNaN) =
      [some false, some false, some false, some true, some true, some true, some true, some true,
        some true] := by
  decide +kernel

end Patchbay
