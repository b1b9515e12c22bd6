import Mathlib
import Patchbay.Proofs.Stream
import Patchbay.Proofs.WholeRounding
import Patchbay.Proofs.Zero

/-!
# Noise comes round

A step of the shift register can be undone, and zero is the only word that it leaves where it is. So
a register that starts elsewhere never comes to zero, and as there are finitely many words it comes
back to where it started. No sample of the noise is zero.
-/

set_option autoImplicit false

namespace Patchbay

open Float.Model Float.Model.UnpackedFloat Rounding

namespace Noise

section Words

variable {w k : Nat}

/-- A word mixed with a mask of itself can be told from the mixture if the places can be ranked such
that a bit of the mask depends on bits of lesser rank alone. -/
theorem injective_xor {mask : BitVec w → BitVec w} (rank : Nat → Nat)
    (depends : ∀ x y i, i < w →
      (∀ j < w, rank j < rank i → x.getLsbD j = y.getLsbD j) →
      (mask x).getLsbD i = (mask y).getLsbD i) :
    Function.Injective fun x => x ^^^ mask x := by
  intro x y h
  have hbits (n : Nat) : ∀ i < w, rank i = n → x.getLsbD i = y.getLsbD i := by
    induction n using Nat.strong_induction_on with
    | h n ih =>
      intro i hi hn
      have hmask : (mask x).getLsbD i = (mask y).getLsbD i :=
        depends x y i hi fun j hj hlt => ih (rank j) (hn ▸ hlt) j hj rfl
      have hmixed := congrArg (BitVec.getLsbD · i) h
      simp only [BitVec.getLsbD_xor, hmask] at hmixed
      exact Bool.xor_left_inj.1 hmixed
  exact BitVec.eq_of_getLsbD_eq fun i hi => hbits (rank i) i hi rfl

theorem injective_xor_shiftLeft (hk : 0 < k) :
    Function.Injective fun x : BitVec w => x ^^^ (x <<< k) := by
  refine injective_xor id fun x y i hi h => ?_
  rw [BitVec.getLsbD_shiftLeft, BitVec.getLsbD_shiftLeft]
  by_cases hlow : i < k
  · simp [hlow]
  · rw [h (i - k) (by omega) (show i - k < i by omega)]

theorem injective_xor_ushiftRight (hk : 0 < k) :
    Function.Injective fun x : BitVec w => x ^^^ (x >>> k) := by
  refine injective_xor (fun i => w - i) fun x y i hi h => ?_
  rw [BitVec.getLsbD_ushiftRight, BitVec.getLsbD_ushiftRight]
  by_cases hhigh : k + i < w
  · exact h (k + i) hhigh (by omega)
  · rw [BitVec.getLsbD_of_ge _ _ (by omega), BitVec.getLsbD_of_ge _ _ (by omega)]

end Words

/-- Each of the three mixtures of a step can be told from its outcome. -/
theorem shift_injective : Function.Injective shift := by
  have hup : Function.Injective fun x : BitVec 32 => x ^^^ (x <<< 13) :=
    injective_xor_shiftLeft (by decide)
  have hdown : Function.Injective fun x : BitVec 32 => x ^^^ (x >>> 17) :=
    injective_xor_ushiftRight (by decide)
  have hagain : Function.Injective fun x : BitVec 32 => x ^^^ (x <<< 5) :=
    injective_xor_shiftLeft (by decide)
  intro x y h
  have hbits : (shift x).toBitVec = (shift y).toBitVec := congrArg UInt32.toBitVec h
  exact UInt32.toBitVec_inj.1 (hup (hdown (hagain hbits)))

theorem shift_bijective : Function.Bijective shift := Finite.injective_iff_bijective.1 shift_injective

theorem shift_zero : shift 0 = 0 := by decide

theorem shift_ne_zero {x : UInt32} (h : x ≠ 0) : shift x ≠ 0 :=
  shift_zero ▸ shift_injective.ne h

/-! ## Samples -/

/-- A word that is not zero, read as a signed integer and rounded. -/
theorem unpack_ofSigned {x : UInt32} (h : x ≠ 0) : ∃ s k e hk,
    (ofSigned x).toModel.unpack = .finite s k e hk ∧ 2 ^ 23 ≤ k ∧ k < 2 ^ 24 ∧ -23 ≤ e ∧ e ≤ 40 := by
  have hword : x.toNat < 2 ^ 32 := x.toNat_lt
  have hpos : x.toNat ≠ 0 := fun hzero => h (UInt32.toNat_inj.1 hzero)
  have hmost {n k : Nat} {e : Int} (hn : n < 2 ^ 32) (hs : Rounding.Significand (nearest n) k e) :
      -23 ≤ e ∧ e ≤ 40 := by
    obtain ⟨hne, hlog⟩ := hs.log2_value
    have := log2_le_of_le (nearest_le hn)
    rw [Nat.log2_two_pow] at this
    omega
  rw [ofSigned]
  split
  · obtain ⟨k, e, hs, heq⟩ := Single.unpack_ofNat_nearest (n := x.toNat) (by omega) (by omega)
    exact ⟨_, k, e, hs.pos, heq, hs.low, hs.high, hmost hword hs⟩
  · obtain ⟨k, e, hs, heq⟩ := Single.unpack_ofNat_nearest (n := 0x100000000 - x.toNat) (by omega)
      (by omega)
    refine ⟨.negative, k, e, hs.pos, ?_, hs.low, hs.high, hmost (by omega) hs⟩
    show UnpackedFloat.unpack Format.binary32
      (UnpackedFloat.pack Format.binary32 (neg (Single.ofNat _).toModel.unpack)) = _
    rw [heq]
    exact Canonical.unpack_pack ⟨hs.high, hs.least, .inl hs.low⟩ hs.most

theorem unpack_divisor :
    (ofSigned 0x7fffffff).toModel.unpack = .finite .positive 8388608 8 (by decide) := by rfl

/-- The divisor is a power of two, so a quotient is exact. -/
theorem divCore_divisor {k : Nat} {e : Int} (hlow : 2 ^ 23 ≤ k) (hhigh : k < 2 ^ 24) (he : -23 ≤ e) :
    divCore Format.binary32 k e 8388608 8 = (2 * k, e - 32, .exact) := by
  have hlog : k.log2 = 23 := (Nat.log2_eq_iff (by omega)).2 ⟨hlow, hhigh⟩
  have hdivisor : Nat.log2 8388608 = 23 := by decide
  have htarget : min (e - 8) (max (totalExponent k e - totalExponent 8388608 8 - 24) (-149)) =
      e - 32 := by
    simp only [totalExponent, hlog, hdivisor]
    omega
  rw [divCore]
  simp only [targetExponent_single, htarget]
  rw [show (e - 8 - (e - 32)).toNat = 24 by omega, Nat.shiftLeft_eq,
    show k * 2 ^ 24 = 2 * k * 8388608 by omega, Nat.mul_div_cancel _ (by decide), Nat.mul_mod_left]
  rfl

theorem sample_ne_zero {x : UInt32} (h : x ≠ 0) : (sample x == 0.0) = false := by
  obtain ⟨s, k, e, hk, heq, hlow, hhigh, he, he'⟩ := unpack_ofSigned h
  have hquotient : (sample x).toModel.unpack = .finite (s / .positive) k (e - 31) hk := by
    have hcanonical : Canonical (.finite (s / .positive) k (e - 31) hk) :=
      ⟨hhigh, by omega, .inl hlow⟩
    rw [sample, Single.div_eq, heq, unpack_divisor]
    show UnpackedFloat.unpack Format.binary32 (UnpackedFloat.pack Format.binary32
      (UnpackedFloat.div Format.binary32 _ _)) = _
    rw [UnpackedFloat.div, divCore_divisor hlow hhigh he]
    simp only
    rw [hcanonical.round (by omega) (by rw [show (e - 31 - (e - 32)).toNat = 1 by omega]; omega),
      hcanonical.unpack_pack (by omega)]
  by_contra hzero
  rw [Bool.not_eq_false] at hzero
  obtain ⟨s', hs'⟩ := Single.unpack_of_zero hzero
  rw [hquotient] at hs'
  cases hs'

/-! ## Runs -/

/-- A call that changes a generator. -/
inductive Call where
  | advance
  | reset

def obey (n : Noise) : Call → Noise
  | .advance => n.advance.2
  | .reset => n.reset

def after (n : Noise) (calls : List Call) : Noise := calls.foldl obey n

/-- A generator that has been advanced a number of times. -/
def ahead (n : Noise) (t : Nat) : Noise := n.after (.replicate t .advance)

variable {n : Noise}

theorem ahead_succ (n : Noise) (t : Nat) : n.ahead (t + 1) = (n.ahead t).advance.2 := by
  rw [ahead, List.replicate_succ', after, List.foldl_concat]
  rfl

theorem ahead_eq (n : Noise) (t : Nat) : n.ahead t = { n with state := shift^[t] n.state } := by
  induction t with
  | zero => rfl
  | succ t ih =>
    rw [ahead_succ, ih, Function.iterate_succ_apply']
    rfl

/-- What a call can start from and leaves: neither the seed nor the state is zero. -/
def Moving (n : Noise) : Prop := n.seed ≠ 0 ∧ n.state ≠ 0

theorem Moving.obey (h : n.Moving) (call : Call) : (n.obey call).Moving := by
  cases call with
  | advance => exact ⟨h.1, shift_ne_zero h.2⟩
  | reset => exact ⟨h.1, h.1⟩

theorem Moving.after (h : n.Moving) (calls : List Call) : (n.after calls).Moving := by
  induction calls generalizing n with
  | nil => exact h
  | cons call calls ih => exact ih (h.obey call)

theorem moving_new (seed : UInt32) : (new seed).Moving := by
  rw [new, Moving]
  by_cases h : seed = 0
  · simp [h]
  · simp [h]

/-- Some number of steps leaves every word where it was. -/
theorem exists_period : ∃ p, 0 < p ∧ ∀ x, shift^[p] x = x := by
  obtain ⟨p, hp, hone⟩ := isOfFinOrder_iff_pow_eq_one.1
    (isOfFinOrder_of_finite (Equiv.ofBijective shift shift_bijective))
  refine ⟨p, hp, fun x => ?_⟩
  show (Equiv.ofBijective shift shift_bijective)^[p] x = x
  rw [Equiv.Perm.iterate_eq_pow, hone, Equiv.Perm.one_apply]

/-- A generator that never comes to zero, is never heard as zero and comes round. -/
structure Lives (n : Noise) : Prop where
  /-- No call stops it. -/
  moves (calls : List Call) : (n.after calls).state ≠ 0
  /-- Neither zero is ever a sample. -/
  sounds (calls : List Call) : ((n.after calls).advance.1 == 0.0) = false
  /-- The state of the seed comes back, and from there all is repeated. -/
  recurs : ∃ p, 0 < p ∧ (n.ahead p).state = n.seed ∧ Function.Periodic n.ahead p

theorem lives_of_moving (h : n.Moving) (hstart : n.state = n.seed) : n.Lives where
  moves calls := (h.after calls).2
  sounds calls := sample_ne_zero (shift_ne_zero (h.after calls).2)
  recurs := by
    obtain ⟨p, hp, hperiod⟩ := exists_period
    refine ⟨p, hp, ?_, fun t => ?_⟩
    · rw [ahead_eq, hperiod]
      exact hstart
    · rw [ahead_eq, ahead_eq, Function.iterate_add_apply, hperiod]

theorem lives_new (seed : UInt32) : (new seed).Lives := lives_of_moving (moving_new seed) rfl

/-- A noise kernel gives the samples of its generator. -/
theorem before_noise (rate : Float32) (n : Noise) (t : Nat) :
    (Kernel.noise n).before rate [] t = some (.noise (n.ahead t)) := by
  induction t with
  | zero => rfl
  | succ t ih =>
    rw [Kernel.before, ih, ahead_succ]
    rfl

/-- A step of the shift register can be undone and leaves zero where it is. From every seed, and
from the hash of every key, the register is never zero whatever the calls, no sample is a zero, and
the state of the seed comes back after some number of steps, from where all is repeated. Of this kind
are the samples of a noise node. -/
theorem noise_recurs :
    Function.Bijective shift ∧ shift 0 = 0 ∧ (∀ seed, (new seed).Lives) ∧
    (∀ key, (ofKey key).Lives) ∧
    ∀ rate held key children t, Expr.nodeStream rate held .noise key children t =
      some ((ofKey (key.getD "noise")).ahead t).advance.1 := by
  refine ⟨shift_bijective, shift_zero, lives_new, fun key => lives_new _, ?_⟩
  intro rate held key children t
  show ((Kernel.noise (ofKey (key.getD "noise"))).before rate [] t).bind _ = _
  rw [before_noise]
  rfl

/-- From 1 and from the seed that stands in for 0. -/
example : (new 1).advance.2.state = 270369 ∧ (new 0).advance.2.state = 0x87985aa5 := by decide

end Noise

end Patchbay
