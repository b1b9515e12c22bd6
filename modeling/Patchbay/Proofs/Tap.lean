import Mathlib
import Patchbay.Proofs.Likeness

/-!
# What a tap passes on

A tap gives what it takes in, frame by frame, whatever it makes of it for those who listen. What
an expression gives does not begin again once it has ended, so the samples of a tap are those of
its input from the first frame to the last.
-/

set_option autoImplicit false

namespace Patchbay

open Patchbay.Expr

variable {rate : Float32} {held : Settings}

/-! ## Kernels of taps -/

namespace Kernel

/-- The kernel gives its first argument and stays a kernel that does. -/
def Passes : Kernel → Prop
  | meter _ _ => True
  | scope _ _ _ => True
  | fft _ _ _ => True
  | _ => False

theorem setup_passes (rate : Float32) {t : Tap} (h : t.HasWindow) (key : Option String) :
    ∃ k, setup (.tap t) key rate = .ok k ∧ k.Passes := by
  refine ⟨ofTap t, setup_tap_iff.2 ⟨h, rfl⟩, ?_⟩
  cases t <;> trivial

theorem tick_passes (rate : Float32) {k : Kernel} (h : k.Passes) (arg : Nat → Float32) :
    ∃ s, k.tick arg rate = .ok s ∧ s.value = arg 0 ∧ s.kernel.Passes := by
  cases k with
  | meter name x => exact ⟨_, rfl, rfl, trivial⟩
  | scope name size held =>
    rw [tick]
    split
    · exact ⟨_, rfl, rfl, trivial⟩
    · exact ⟨_, rfl, rfl, trivial⟩
  | fft name size held =>
    rw [tick]
    split
    · exact ⟨_, rfl, rfl, trivial⟩
    · exact ⟨_, rfl, rfl, trivial⟩
  | _ => exact h.elim

theorem stepAt_passes (rate : Float32) {k : Kernel} (h : k.Passes) {as : Samples} {t : Nat}
    {x : Float32} (ht : as t = some x) :
    ∃ s, k.stepAt rate [as] t = some s ∧ s.value = x ∧ s.kernel.Passes := by
  obtain ⟨s, hs, hvalue, hkernel⟩ := tick_passes rate h fun i => [x].getD i 0.0
  refine ⟨s, ?_, hvalue, hkernel⟩
  simp only [stepAt, List.mapM_cons, List.mapM_nil, ht, Option.bind_eq_bind, Option.pure_def,
    Option.bind_some, hs, Except.toOption]

theorem before_passes (rate : Float32) {k : Kernel} (h : k.Passes) {as : Samples} {t : Nat}
    (hall : ∀ i < t, (as i).isSome) : ∃ now, k.before rate [as] t = some now ∧ now.Passes := by
  induction t with
  | zero => exact ⟨k, rfl, h⟩
  | succ t ih =>
    obtain ⟨now, hnow, hpasses⟩ := ih fun i hi => hall i (by omega)
    obtain ⟨x, hx⟩ := Option.isSome_iff_exists.1 (hall t (by omega))
    obtain ⟨s, hs, -, hkernel⟩ := stepAt_passes rate hpasses hx
    exact ⟨s.kernel, by rw [before, hnow, Option.bind_some, hs]; rfl, hkernel⟩

/-- A kernel that passes its argument on has the samples of the argument, if these do not begin
again once they have ended. -/
theorem samples_passes {k : Kernel} (h : k.Passes) {as : Samples}
    (unbroken : ∀ t, (as t).isSome → ∀ i < t, (as i).isSome) : k.samples rate [as] = as := by
  funext t
  cases ht : as t with
  | none =>
    have hstep (now : Kernel) : now.stepAt rate [as] t = none := by
      simp only [stepAt, List.mapM_cons, ht, Option.bind_eq_bind, Option.bind_none]
    simp only [samples, hstep, Option.map_none, Option.bind_fun_none]
  | some x =>
    obtain ⟨now, hnow, hpasses⟩ := before_passes rate h (unbroken t (by rw [ht]; rfl))
    obtain ⟨s, hs, rfl, -⟩ := stepAt_passes rate hpasses ht
    rw [samples, hnow, Option.bind_some, hs]
    rfl

/-- Without an argument it gives zeros. -/
theorem samples_passes_nil {k : Kernel} (h : k.Passes) :
    k.samples rate [] = fun _ => some 0.0 := by
  have hstep (now : Kernel) (hnow : now.Passes) :
      ∃ s, now.tick (fun i => ([] : List Float32).getD i 0.0) rate = .ok s ∧ s.value = 0.0 ∧
        s.kernel.Passes := tick_passes rate hnow _
  exact samples_const Passes h hstep

theorem before_of_succ {args : List Samples} {k : Kernel} {t : Nat}
    (h : (k.before rate args (t + 1)).isSome) : (k.samples rate args t).isSome := by
  obtain ⟨next, hnext⟩ := Option.isSome_iff_exists.1 h
  rw [before, Option.bind_eq_some_iff] at hnext
  obtain ⟨now, hnow, hnext⟩ := hnext
  obtain ⟨s, hs, -⟩ := Option.map_eq_some_iff.1 hnext
  rw [samples, hnow, Option.bind_some, hs]
  rfl

theorem before_of_samples {args : List Samples} {k : Kernel} {t : Nat}
    (h : (k.samples rate args t).isSome) : (k.before rate args t).isSome := by
  obtain ⟨x, hx⟩ := Option.isSome_iff_exists.1 h
  rw [samples, Option.bind_eq_some_iff] at hx
  obtain ⟨now, hnow, -⟩ := hx
  rw [hnow]
  rfl

theorem samples_unbroken {args : List Samples} {k : Kernel} {t : Nat}
    (h : (k.samples rate args t).isSome) : ∀ i < t, (k.samples rate args i).isSome := by
  induction t with
  | zero => simp
  | succ t ih =>
    have ht := before_of_succ (before_of_samples h)
    intro i hi
    rcases Nat.lt_succ_iff_lt_or_eq.1 hi with hi | rfl
    · exact ih ht i hi
    · exact ht

end Kernel

namespace Expr

theorem stream_unbroken (e : Expr) {t : Nat} (h : (e.stream rate held t).isSome) :
    ∀ i < t, (e.stream rate held i).isSome := by
  by_cases hop : ∃ v, e.op = .const v
  · obtain ⟨v, hv⟩ := hop
    rw [stream_const hv]
    exact fun _ _ => rfl
  · have hop : ∀ v, e.op ≠ .const v := fun v hv => hop ⟨v, hv⟩
    cases hk : Kernel.setup e.op e.key rate with
    | ok k =>
      rw [stream_kernel hop hk] at h ⊢
      exact Kernel.samples_unbroken h
    | error f =>
      obtain ⟨l, op, key, cs⟩ := e
      simp only [Expr.op, Expr.key] at hk hop
      cases op with
      | const v => exact absurd rfl (hop v)
      | _ => simp [stream, nodeStream, hk] at h

/-- What a tap takes in, or a constant zero without a child. -/
def input (l : Label) : List Expr → Expr
  | [] => node l (.const 0.0) none []
  | c :: _ => c

/-- A tap cannot be heard. -/
theorem stream_tap {l : Label} {t : Tap} (h : t.HasWindow) (key : Option String) (cs : List Expr) :
    (node l (.tap t) key cs).stream rate held = (input l cs).stream rate held := by
  obtain ⟨k, hk, hpasses⟩ := Kernel.setup_passes rate h key
  rw [stream_kernel (e := node l (.tap t) key cs) (by rintro v ⟨⟩) hk]
  cases cs with
  | nil => exact Kernel.samples_passes_nil hpasses
  | cons c cs => exact Kernel.samples_passes hpasses fun t => c.stream_unbroken

end Expr

end Patchbay
