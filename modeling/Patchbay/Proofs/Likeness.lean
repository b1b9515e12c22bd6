import Mathlib
import Patchbay.Proofs.Number
import Patchbay.Proofs.VisitOrder

/-!
# Expressions that sound alike

As long as nobody sets a constant, labels and keys of constants cannot be heard: two expressions of
one shape with equal streams at their leaves sound alike. Constructions that do the same to
expressions that sound alike make expressions that do.
-/

set_option autoImplicit false

namespace Patchbay

open Patchbay.Expr

/-- Nobody sets a constant. -/
def quiet : Settings := fun _ _ => none

variable {rate : Float32}

namespace Kernel

/-- Two kernels that are stepped in pace and give the same all along. -/
theorem samples_congr {args args' : List Samples} {k : Kernel} (I : Kernel → Prop) (hk : I k)
    (hsame : ∀ now t, I now → now.stepAt rate args t = now.stepAt rate args' t)
    (hkeep : ∀ now t s, I now → now.stepAt rate args t = some s → I s.kernel) :
    k.samples rate args = k.samples rate args' := by
  have hbefore (t : Nat) : k.before rate args t = k.before rate args' t ∧
      ∀ now, k.before rate args t = some now → I now := by
    induction t with
    | zero => exact ⟨rfl, fun now h => by cases h; exact hk⟩
    | succ t ih =>
      obtain ⟨heq, hinv⟩ := ih
      rw [before, before, ← heq]
      cases hb : before rate args k t with
      | none => exact ⟨rfl, fun now h => by cases h⟩
      | some now =>
        have hI := hinv now hb
        refine ⟨by simp only [Option.bind_some, hsame now t hI], fun next h => ?_⟩
        obtain ⟨s, hs, rfl⟩ := Option.map_eq_some_iff.1 h
        exact hkeep now t s hI hs
  funext t
  obtain ⟨heq, hinv⟩ := hbefore t
  rw [samples, samples, ← heq]
  cases hb : before rate args k t with
  | none => rfl
  | some now => simp only [Option.bind_some, hsame now t (hinv now hb)]

theorem mapM_const (xs : List Float32) (t : Nat) :
    (xs.map fun x => (fun _ => some x : Samples)).mapM (· t) = some xs := by
  induction xs with
  | nil => rfl
  | cons x xs ih => simp [List.mapM_cons, ih]

/-- On constant arguments a kernel gives one value as long as each of its steps does. -/
theorem samples_const {xs : List Float32} {v : Float32} {k : Kernel} (I : Kernel → Prop) (hk : I k)
    (hstep : ∀ now, I now → ∃ s, now.tick (fun i => xs.getD i 0.0) rate = .ok s ∧
      s.value = v ∧ I s.kernel) :
    k.samples rate (xs.map fun x _ => some x) = fun _ => some v := by
  have hstepAt (now : Kernel) (t : Nat) (h : I now) :
      ∃ s, now.stepAt rate (xs.map fun x _ => some x) t = some s ∧ s.value = v ∧ I s.kernel := by
    obtain ⟨s, hs, hv, hI⟩ := hstep now h
    refine ⟨s, ?_, hv, hI⟩
    rw [stepAt, mapM_const]
    show (now.tick (fun i => xs.getD i 0.0) rate).toOption = some s
    rw [hs]
    rfl
  have hbefore (t : Nat) :
      ∃ now, k.before rate (xs.map fun x _ => some x) t = some now ∧ I now := by
    induction t with
    | zero => exact ⟨k, rfl, hk⟩
    | succ t ih =>
      obtain ⟨now, hnow, hI⟩ := ih
      obtain ⟨s, hs, -, hI'⟩ := hstepAt now t hI
      exact ⟨s.kernel, by rw [before, hnow, Option.bind_some, hs]; rfl, hI'⟩
  funext t
  obtain ⟨now, hnow, hI⟩ := hbefore t
  obtain ⟨s, hs, hv, -⟩ := hstepAt now t hI
  rw [samples, hnow, Option.bind_some, hs, ← hv]
  rfl

end Kernel

namespace Expr

/-- Every node of an expression has a kernel, and none of them stops within `n` frames. -/
def Sounds (rate : Float32) (n : Nat) (e : Expr) : Prop :=
  ∀ f ∈ parts e, (∃ k, Kernel.setup f.op f.key rate = .ok k) ∧
    ∀ i < n, (f.stream rate quiet i).isSome

theorem sounds_node (n : Nat) (l : Label) (op : Op) (key : Option String) (cs : List Expr) :
    Sounds rate n (node l op key cs) ↔ (∃ k, Kernel.setup op key rate = .ok k) ∧
      (∀ i < n, ((node l op key cs).stream rate quiet i).isSome) ∧ ∀ c ∈ cs, Sounds rate n c := by
  simp only [Sounds, parts, List.forall_mem_cons, mem_partsAll]
  constructor
  · rintro ⟨⟨hk, hs⟩, hcs⟩
    exact ⟨hk, hs, fun c hc f hf => hcs f ⟨c, hc, hf⟩⟩
  · rintro ⟨hk, hs, hcs⟩
    exact ⟨⟨hk, hs⟩, fun f ⟨c, hc, hf⟩ => hcs c hc f hf⟩

theorem Sounds.failure? {n : Nat} {e : Expr} (h : Sounds rate n e) : failure? rate [e] = none :=
  failure?_eq_none_iff.2 fun f hf => (h f hf).1

theorem not_sounds_of_failure {e : Expr} {err : Kernel.SetupError}
    (h : Expr.failure? rate [e] = some err) (n : Nat) : ¬Sounds rate n e := by
  intro hsounds
  rw [hsounds.failure?] at h
  cases h

/-- The same samples, as far as there are any, the same reach, and the same reason for none. -/
structure Alike (rate : Float32) (e e' : Expr) : Prop where
  stream : e.stream rate quiet = e'.stream rate quiet
  failure : failure? rate [e] = failure? rate [e']
  sounds : ∀ n, Sounds rate n e ↔ Sounds rate n e'

/-- One number for ever. -/
structure Steady (rate v : Float32) (e : Expr) : Prop where
  stream : e.stream rate quiet = fun _ => some v
  sounds : ∀ n, Sounds rate n e

variable {e e' : Expr} {v w : Float32}

theorem alike_refl (rate : Float32) (e : Expr) : Alike rate e e := ⟨rfl, rfl, fun _ => Iff.rfl⟩

theorem Alike.trans {e'' : Expr} (h : Alike rate e e') (h' : Alike rate e' e'') :
    Alike rate e e'' :=
  ⟨h.stream.trans h'.stream, h.failure.trans h'.failure, fun n => (h.sounds n).trans (h'.sounds n)⟩

theorem Steady.alike (h : Steady rate v e) (h' : Steady rate v e') : Alike rate e e' :=
  ⟨h.stream.trans h'.stream.symm, (h.sounds 0).failure?.trans (h'.sounds 0).failure?.symm,
    fun n => iff_of_true (h.sounds n) (h'.sounds n)⟩

/-- Alike, or two numbers for ever of which `P` holds. -/
inductive Akin (rate : Float32) (P : Float32 → Float32 → Prop) : Expr → Expr → Prop
  | alike {e e' : Expr} (h : Alike rate e e') : Akin rate P e e'
  | steady {v w : Float32} {e e' : Expr} (hv : Steady rate v e) (hw : Steady rate w e')
      (h : P v w) : Akin rate P e e'

theorem Akin.sounds {P : Float32 → Float32 → Prop} (h : Akin rate P e e') (n : Nat) :
    Sounds rate n e ↔ Sounds rate n e' := by
  cases h with
  | alike h => exact h.sounds n
  | steady hv hw _ => exact iff_of_true (hv.sounds n) (hw.sounds n)

theorem Akin.failure {P : Float32 → Float32 → Prop} (h : Akin rate P e e') :
    failure? rate [e] = failure? rate [e'] := by
  cases h with
  | alike h => exact h.failure
  | steady hv hw _ => rw [(hv.sounds 0).failure?, (hw.sounds 0).failure?]

/-- Sample by sample the same numbers. -/
theorem Akin.same (h : Akin rate Single.Same e e') {t : Nat} {x y : Float32}
    (hx : e.stream rate quiet t = some x) (hy : e'.stream rate quiet t = some y) :
    Single.Same x y := by
  cases h with
  | alike h =>
    rw [h.stream, hy] at hx
    cases hx
    exact Single.same_refl _
  | steady hv hw h =>
    rw [hv.stream] at hx
    rw [hw.stream] at hy
    cases hx
    cases hy
    exact h

theorem streams_alike {cs cs' : List Expr} (h : List.Forall₂ (Alike rate) cs cs') :
    streams rate quiet cs = streams rate quiet cs' := by
  induction h with
  | nil => rfl
  | cons hc _ ih => rw [streams, streams, hc.stream, ih]

theorem failure_alike {cs cs' : List Expr} (h : List.Forall₂ (Alike rate) cs cs') :
    failure? rate cs = failure? rate cs' := by
  induction h with
  | nil => rfl
  | @cons c c' cs cs' hc _ ih =>
    rw [failure?_cons rate c cs, failure?_cons rate c' cs', hc.failure, ih]

theorem sounds_alike {cs cs' : List Expr} (h : List.Forall₂ (Alike rate) cs cs') (n : Nat) :
    (∀ c ∈ cs, Sounds rate n c) ↔ ∀ c ∈ cs', Sounds rate n c := by
  induction h with
  | nil => rfl
  | cons hc _ ih => rw [List.forall_mem_cons, List.forall_mem_cons, hc.sounds n, ih]

/-- Keys count with noise alone. -/
theorem setup_key {op : Op} {key key' : Option String} (hkey : op = .noise → key = key') :
    Kernel.setup op key rate = Kernel.setup op key' rate := by
  cases op with
  | noise => rw [hkey rfl]
  | tap t => cases t <;> rfl
  | _ => rfl

theorem nodeStream_key {op : Op} {key key' : Option String} (hkey : op = .noise → key = key')
    (cs : List Samples) : nodeStream rate quiet op key cs = nodeStream rate quiet op key' cs := by
  cases op with
  | const v => cases key <;> cases key' <;> rfl
  | _ => simp only [nodeStream, setup_key hkey]

/-- Nodes with one operation over children that sound alike. -/
theorem alike_node {op : Op} {key key' : Option String} (hkey : op = .noise → key = key')
    {cs cs' : List Expr} (h : List.Forall₂ (Alike rate) cs cs') (l l' : Label) :
    Alike rate (node l op key cs) (node l' op key' cs') := by
  have hstream :
      (node l op key cs).stream rate quiet = (node l' op key' cs').stream rate quiet := by
    rw [stream, stream, streams_alike h, nodeStream_key hkey]
  refine ⟨hstream, ?_, fun n => ?_⟩
  · rw [failure?_node, failure?_node, failure_alike h, setup_key hkey]
  · rw [sounds_node, sounds_node, hstream, setup_key hkey, sounds_alike h]

theorem streams_steady {xs : List Float32} {cs : List Expr}
    (h : List.Forall₂ (Steady rate) xs cs) :
    streams rate quiet cs = xs.map fun x _ => some x := by
  induction h with
  | nil => rfl
  | cons hc _ ih => rw [streams, hc.stream, ih, List.map_cons]

theorem sounds_steady {xs : List Float32} {cs : List Expr}
    (h : List.Forall₂ (Steady rate) xs cs) (n : Nat) : ∀ c ∈ cs, Sounds rate n c := by
  induction h with
  | nil => simp
  | cons hc _ ih => exact List.forall_mem_cons.2 ⟨hc.sounds n, ih⟩

theorem steady_const (l : Label) (key : Option String) (v : Float32) :
    Steady rate v (node l (.const v) key []) := by
  have hstream : (node l (.const v) key []).stream rate quiet = fun _ => some v := by
    cases key <;> rfl
  refine ⟨hstream, fun n => (sounds_node n _ _ _ _).2 ⟨⟨_, rfl⟩, fun i _ => ?_, by simp⟩⟩
  rw [hstream]
  rfl

theorem steady_node {op : Op} {key : Option String} {xs : List Float32} {cs : List Expr}
    {k : Kernel} (hop : ∀ v, op ≠ .const v) (hsetup : Kernel.setup op key rate = .ok k)
    (h : List.Forall₂ (Steady rate) xs cs) (hlen : xs.length = op.arity) (I : Kernel → Prop)
    (hk : I k) (hstep : ∀ now, I now → ∃ s, now.tick (fun i => xs.getD i 0.0) rate = .ok s ∧
      s.value = v ∧ I s.kernel) (l : Label) : Steady rate v (node l op key cs) := by
  have hstream : (node l op key cs).stream rate quiet = fun _ => some v := by
    rw [stream_kernel (e := node l op key cs) hop hsetup]
    show k.samples rate ((streams rate quiet cs).take op.arity) = _
    rw [streams_steady h, List.take_of_length_le (by rw [List.length_map, hlen])]
    exact Kernel.samples_const I hk hstep
  refine ⟨hstream, fun n =>
    (sounds_node n _ _ _ _).2 ⟨⟨k, hsetup⟩, fun i _ => ?_, sounds_steady h n⟩⟩
  rw [hstream]
  rfl

theorem steady_meter (h : Steady rate v e) (l : Label) (name : String) (key : Option String) :
    Steady rate v (node l (.tap (.meter name)) key [e]) := by
  refine steady_node (by rintro v ⟨⟩) rfl (.cons h .nil) rfl (fun k => ∃ x, k = .meter name x)
    ⟨_, rfl⟩ ?_ l
  rintro now ⟨x, rfl⟩
  exact ⟨_, rfl, rfl, _, rfl⟩

theorem steady_binary (h : Steady rate v e) (h' : Steady rate w e') (f : BinaryOp) (l : Label)
    (key : Option String) : Steady rate (f.apply v w) (node l (.binary f) key [e, e']) := by
  refine steady_node (by rintro v ⟨⟩) rfl (.cons h (.cons h' .nil)) rfl (· = .binary f) rfl ?_ l
  rintro now rfl
  exact ⟨_, rfl, rfl, rfl⟩

theorem gate_stepAt {v w : Float32}
    (hedge : decide ((0.0 : Float32) < v) = decide ((0.0 : Float32) < w)) (a d s r : Samples)
    (envelope : Envelope) (gate : Bool) (t : Nat) :
    (Kernel.envelope envelope gate).stepAt rate [a, d, s, r, fun _ => some v] t =
      (Kernel.envelope envelope gate).stepAt rate [a, d, s, r, fun _ => some w] t := by
  have htick (xa xd xs xr : Float32) :
      (Kernel.envelope envelope gate).tick (fun i => [xa, xd, xs, xr, v].getD i 0.0) rate =
        (Kernel.envelope envelope gate).tick (fun i => [xa, xd, xs, xr, w].getD i 0.0) rate := by
    simp only [Kernel.tick, List.getD_cons_zero, List.getD_cons_succ, hedge]
  simp only [Kernel.stepAt, List.mapM_cons, List.mapM_nil, Option.bind_eq_bind, Option.pure_def,
    Option.bind_some, Option.bind_assoc, htick]

theorem gate_samples {v w : Float32}
    (hedge : decide ((0.0 : Float32) < v) = decide ((0.0 : Float32) < w)) (a d s r : Samples)
    (envelope : Envelope) (gate : Bool) :
    (Kernel.envelope envelope gate).samples rate [a, d, s, r, fun _ => some v] =
      (Kernel.envelope envelope gate).samples rate [a, d, s, r, fun _ => some w] := by
  refine Kernel.samples_congr (fun k => ∃ envelope gate, k = .envelope envelope gate)
    ⟨_, _, rfl⟩ ?_ ?_
  · rintro now t ⟨envelope, gate, rfl⟩
    exact gate_stepAt hedge a d s r envelope gate t
  · rintro now t step ⟨envelope, gate, rfl⟩ h
    simp only [Kernel.stepAt, Option.bind_eq_bind, Option.bind_eq_some_iff] at h
    obtain ⟨xs, -, h⟩ := h
    cases h
    exact ⟨_, _, rfl⟩

/-- An envelope hears of its gate only whether it is above zero. -/
theorem alike_gate {a d s r g g' : Expr}
    (h : Akin rate (fun v w => decide ((0.0 : Float32) < v) = decide ((0.0 : Float32) < w)) g g')
    (l : Label) (key : Option String) :
    Alike rate (node l .envelope key [a, d, s, r, g]) (node l .envelope key [a, d, s, r, g']) := by
  have hstream : (node l .envelope key [a, d, s, r, g]).stream rate quiet =
      (node l .envelope key [a, d, s, r, g']).stream rate quiet := by
    have hnode (g : Expr) : (node l .envelope key [a, d, s, r, g]).stream rate quiet =
        (Kernel.envelope (.new rate) false).samples rate
          [a.stream rate quiet, d.stream rate quiet, s.stream rate quiet, r.stream rate quiet,
            g.stream rate quiet] :=
      stream_kernel (e := node l .envelope key [a, d, s, r, g]) (by rintro v ⟨⟩) rfl
    rw [hnode, hnode]
    cases h with
    | alike h => rw [h.stream]
    | steady hv hw hedge =>
      rw [hv.stream, hw.stream]
      exact gate_samples hedge _ _ _ _ _ _
  refine ⟨hstream, ?_, fun n => ?_⟩
  · simp only [failure?_node, failure?_cons rate _ (_ :: _), h.failure]
  · rw [sounds_node, sounds_node, hstream]
    simp only [List.forall_mem_cons, h.sounds n]

theorem Akin.meter {P : Float32 → Float32 → Prop} (h : Akin rate P e e') (name : String)
    (l l' : Label) :
    Akin rate P (node l (.tap (.meter name)) none [e])
      (node l' (.tap (.meter name)) none [e']) := by
  cases h with
  | alike h => exact .alike (alike_node (by simp) (.cons h .nil) l l')
  | steady hv hw h => exact .steady (steady_meter hv l name none) (steady_meter hw l' name none) h

end Expr

end Patchbay
