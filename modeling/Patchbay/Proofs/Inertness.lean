import Mathlib
import Patchbay.Proofs.Injection
import Patchbay.Proofs.Number
import Patchbay.Proofs.Session

/-!
# Instrumentation cannot be heard

Nodes for taps are run that a bare target does not have, but a weight of zero silences whatever
they carry, and a sum with zero is the same number. That is the whole of it, as long as nobody sets
the zeros to something else.
-/

set_option autoImplicit false

namespace Patchbay

open Patchbay.Expr

variable {rate : Float32} {held : Settings} {known : Set Expr}

/-- The keys under which the added zeros can be set. -/
def RenderTarget.zeroKeys (t : RenderTarget) : Set String :=
  {key | ∃ e ∈ under [t.left, t.right], e.label.scope.Injected ∧ Program.constKey? e = some key}

/-- Where a kernel gives a sample, it is that of a step of a kernel as it is kept all along. -/
theorem Kernel.samples_step {args : List Samples} {k : Kernel} {t : Nat} {z : Float32}
    (I : Kernel → Prop) (hk : I k)
    (hkeep : ∀ now t s, I now → now.stepAt rate args t = some s → I s.kernel)
    (h : k.samples rate args t = some z) :
    ∃ now s, I now ∧ now.stepAt rate args t = some s ∧ s.value = z := by
  have hbefore (t : Nat) : ∀ now, k.before rate args t = some now → I now := by
    induction t with
    | zero =>
      intro now hnow
      cases hnow
      exact hk
    | succ t ih =>
      intro now hnow
      simp only [before, Option.bind_eq_some_iff, Option.map_eq_some_iff] at hnow
      obtain ⟨earlier, hearlier, s, hs, rfl⟩ := hnow
      exact hkeep earlier t s (ih earlier hearlier) hs
  simp only [samples, Option.bind_eq_some_iff, Option.map_eq_some_iff] at h
  obtain ⟨now, hnow, s, hs, hz⟩ := h
  exact ⟨now, s, hbefore t now hnow, hs, hz⟩

theorem binary_stepAt {f : BinaryOp} {as bs : Samples} {t : Nat} {s : Kernel.Step}
    (h : (Kernel.binary f).stepAt rate [as, bs] t = some s) :
    s.kernel = .binary f ∧ ∃ x y, as t = some x ∧ bs t = some y ∧ s.value = f.apply x y := by
  simp only [Kernel.stepAt, List.mapM_cons, List.mapM_nil, Option.bind_eq_bind,
    Option.bind_eq_some_iff, Option.pure_def, Option.some.injEq] at h
  obtain ⟨xs, ⟨x, hx, ys, ⟨y, hy, zs, rfl, rfl⟩, rfl⟩, hs⟩ := h
  cases hs
  exact ⟨rfl, x, y, hx, hy, rfl⟩

theorem stream_binary {l : Label} {f : BinaryOp} {key : Option String} {a b : Expr} {t : Nat}
    {z : Float32} (h : (Expr.node l (.binary f) key [a, b]).stream rate held t = some z) :
    ∃ x y, a.stream rate held t = some x ∧ b.stream rate held t = some y ∧ z = f.apply x y := by
  rw [stream_kernel (by rintro v ⟨⟩) rfl] at h
  obtain ⟨now, s, rfl, hs, rfl⟩ := Kernel.samples_step (· = .binary f) rfl
    (fun now t s hnow hs => (binary_stepAt (hnow ▸ hs)).1) h
  exact (binary_stepAt hs).2

/-- The zeros being left alone, the terms of a chain do not count. -/
theorem muted_stream {base e : Expr} (h : Muted base e) {t : Nat}
    (hzero : ∀ z ∈ parts e, z.label.scope.Injected → ∀ key, Program.constKey? z = some key →
      held t key = none) {y : Float32} (hy : e.stream rate held t = some y) :
    ∃ x, base.stream rate held t = some x ∧ Single.Same y x := by
  induction h generalizing y with
  | base => exact ⟨y, hy, Single.same_refl y⟩
  | term scope injected i j k key left signal muted ih =>
    obtain ⟨a, b, ha, hb, rfl⟩ := stream_binary hy
    obtain ⟨z, w, hz, -, rfl⟩ := stream_binary hb
    have hnone : held t key = none := hzero (.node ⟨scope, i⟩ (.const 0.0) (some key) [])
      (by simp [parts, partsAll]) injected key rfl
    rw [stream_const (v := 0.0) rfl] at hz
    simp only [Expr.key, Option.bind_some, hnone, Option.getD_none, Option.some.injEq] at hz
    subst hz
    obtain ⟨x, hx, hsame⟩ := ih (fun z hz => hzero z (by simp [parts, partsAll, hz])) ha
    refine ⟨x, hx, Single.same_trans ?_ hsame⟩
    -- a zero is added, which can only change the sign of another zero
    rw [BinaryOp.apply, BinaryOp.apply, mulAnnihilating_zero]
    exact Single.same_add_zero a

/-- Where there is a window to fill, it takes a fault to leave a node without a kernel. -/
theorem Kernel.setup_error {op : Op} {key : Option String} {e : Kernel.SetupError}
    (hw : op.HasWindow) (h : Kernel.setup op key rate = .error e) : ∃ f, e = .fault f := by
  cases op with
  | delay maxMs =>
    rw [setup] at h
    split at h
    · cases h
    · cases h
      exact ⟨_, rfl⟩
  | tap t =>
    rw [setup_tap_iff.2 ⟨hw, rfl⟩] at h
    cases h
  | _ => cases h

theorem load_fault {r : Renderer} {t : RenderTarget} (hg : Grown known) (hl : t.left ∈ known)
    (hr : t.right ∈ known) (h : ∀ f, r.load t.left t.right ≠ .error (.fault f)) :
    ∃ r', r.load t.left t.right = .ok r' := by
  have hroots : ∀ e ∈ [t.left, t.right], e ∈ known := by simp [hl, hr]
  rw [load_ok_iff]
  cases hb : Program.build t.left t.right r.sampleRate with
  | ok p => exact ⟨p, rfl⟩
  | error e =>
    obtain ⟨n, hn, hsetup⟩ := build_error (coherent_of_grown hg hroots) hb
    obtain ⟨f, rfl⟩ :=
      Kernel.setup_error (hg.formed n (partsAll_of_grown hg _ hroots n hn)).window hsetup
    exact absurd ((load_eq_error_iff r _).2 ⟨_, hb, rfl⟩) (h f)

theorem Call.settings_of_not_set {calls : List Call} {key : String}
    (h : ∀ v, Call.setConst key v ∉ calls) (current : String → Option Float32) (t : Nat) :
    Call.settings current calls t key = current key := by
  induction calls generalizing current t with
  | nil => rfl
  | cons call rest ih =>
    have hrest : ∀ v, Call.setConst key v ∉ rest := fun v hv => h v (by simp [hv])
    cases call with
    | process n =>
      rw [settings]
      split
      · rfl
      · exact ih hrest current _
    | setConst key' value =>
      have hne : key ≠ key' := by
        rintro rfl
        exact h value (by simp)
      rw [settings, ih hrest, Function.update_of_ne hne]

/-- The same numbers on both channels, frame by frame. -/
structure Stereo.Same (a b : Stereo) : Prop where
  left : List.Forall₂ Single.Same a.left.toList b.left.toList
  right : List.Forall₂ Single.Same a.right.toList b.right.toList

theorem forall₂_of_streams {s u : Samples} (h : ∀ i x y, s i = some x → u i = some y →
      Single.Same x y) (frames : List Nat) (xs ys : List Float32)
    (hx : xs.map some = frames.map s) (hy : ys.map some = frames.map u) :
    List.Forall₂ Single.Same xs ys := by
  induction frames generalizing xs ys with
  | nil =>
    rw [List.map_nil, List.map_eq_nil_iff] at hx hy
    subst hx hy
    exact .nil
  | cons i frames ih =>
    cases xs with
    | nil => cases hx
    | cons x xs =>
      cases ys with
      | nil => cases hy
      | cons y ys =>
        rw [List.map_cons, List.map_cons, List.cons.injEq] at hx hy
        exact .cons (h i x y hx.1.symm hy.1.symm) (ih xs ys hx.2 hy.2)

theorem mem_parts_of_muted {base e : Expr} (h : Muted base e) : base ∈ parts e := by
  induction h with
  | base => exact mem_parts _
  | term scope injected i j k key left signal muted ih =>
    simp [parts, partsAll, ih]

/-- A bare target has no other nodes than one with instrumentation. -/
theorem under_of_instrumented {bare t : RenderTarget} (h : Compile.Instrumented bare t) :
    under [bare.left, bare.right] ⊆ under [t.left, t.right] := by
  intro e he
  simp only [under, Set.mem_ofPred_eq, partsAll, List.append_nil, List.mem_append] at he ⊢
  rw [h.right]
  exact he.imp_left fun he => parts_trans _ _ (mem_parts_of_muted h.left) he

/-- However a patch is compiled, it sounds like its bare target: whatever a host calls, short of
setting one of the added zeros, the samples are the same numbers on both channels. -/
theorem instrument_inert (options : CompileOptions) (nodes : List Node) (edges : List Edge)
    (t : RenderTarget) (h : (Compile.patch .builtin options nodes edges).target = some t) :
    ∃ bare, (Compile.patch .builtin .bare nodes edges).target = some bare ∧
      ∀ (r : Renderer) (calls : List Call),
        (∀ key ∈ t.zeroKeys, ∀ v, Call.setConst key v ∉ calls) →
        (∀ f, r.load t.left t.right ≠ .error (.fault f)) →
        (∀ r' f, r.load t.left t.right = .ok r' → r'.play calls ≠ .error f) →
        ∃ rt out rb heard, r.load t.left t.right = .ok rt ∧ rt.play calls = .ok out ∧
          r.load bare.left bare.right = .ok rb ∧ rb.play calls = .ok heard ∧
          Stereo.Same out heard := by
  obtain ⟨bare, hb, hi⟩ := Compile.patch_spec builtin_sound h
  refine ⟨bare, hb, fun r calls hzero hload hplay => ?_⟩
  obtain ⟨known, hg, hl, hr⟩ := hi.grown
  have hs : Coherent (under [t.left, t.right]) := coherent_of_grown hg (by simp [hl, hr])
  have hsub := under_of_instrumented hi
  have hsb : Coherent (under [bare.left, bare.right]) := hs.mono hsub
  obtain ⟨rt, hrt⟩ := load_fault hg hl hr hload
  obtain ⟨out, hout⟩ : ∃ out, rt.play calls = .ok out := by
    cases hp : rt.play calls with
    | ok out => exact ⟨out, rfl⟩
    | error f => exact absurd hp (hplay rt f hrt)
  obtain ⟨rb, hrb⟩ : ∃ rb, r.load bare.left bare.right = .ok rb := by
    rw [load_ok_iff, build_ok_iff hsb]
    have := (build_ok_iff hs).1 ((load_ok_iff r).1 ⟨rt, hrt⟩)
    exact fun e he => this e (hsub he)
  obtain ⟨heard, hheard⟩ := (play_ok_iff hsb hrb calls).2 fun e he =>
    (play_ok_iff hs hrt calls).1 ⟨out, hout⟩ e (hsub he)
  refine ⟨rt, out, rb, heard, hrt, hout, hrb, hheard, ?_⟩
  have ht := play_hears hs hrt hout
  have hbare := play_hears hsb hrb hheard
  constructor
  · refine forall₂_of_streams (fun i x y hx hy => ?_) _ _ _ ht.left hbare.left
    obtain ⟨y', hy', hsame⟩ := muted_stream hi.left (fun z hz hinj key hkey => by
      rw [Call.settings_of_not_set (hzero key ⟨z, by simp [under, partsAll, hz], hinj, hkey⟩)])
      hx
    rw [hy] at hy'
    cases hy'
    exact hsame
  · refine forall₂_of_streams (fun i x y hx hy => ?_) _ _ _ ht.right hbare.right
    rw [hi.right, hy] at hx
    cases hx
    exact Single.same_refl _

/-- A number that is heard and shown by a scope besides, with both of its edges metered. -/
def shownNodes : List Node :=
  [⟨"n", "number", none, .empty⟩, ⟨"s", "scope", none, .empty⟩, ⟨"out", "output", none, .empty⟩]

def shownEdges : List Edge :=
  [⟨"a", "n", "signal", "out", "left"⟩, ⟨"b", "n", "signal", "s", "input"⟩]

def shownTarget : RenderTarget :=
  (Compile.patch .builtin ⟨true, false⟩ shownNodes shownEdges).target.getD
    ⟨Renderer.silentRoot, Renderer.silentRoot⟩

theorem instrument_inert_shown : ∃ bare,
    (Compile.patch .builtin .bare shownNodes shownEdges).target = some bare ∧
    ∃ rt out rb heard,
      Renderer.load ⟨48000.0, 512, 0, none, .empty, 0⟩ shownTarget.left shownTarget.right = .ok rt ∧
      rt.play [.process 1, .setConst "n:value" 0.25, .process 1] = .ok out ∧
      Renderer.load ⟨48000.0, 512, 0, none, .empty, 0⟩ bare.left bare.right = .ok rb ∧
      rb.play [.process 1, .setConst "n:value" 0.25, .process 1] = .ok heard ∧
      Stereo.Same out heard := by
  have hnot : ∀ e ∈ partsAll [shownTarget.left, shownTarget.right], e.label.scope.Injected →
      Program.constKey? e ≠ some "n:value" := by decide
  obtain ⟨bare, hb, hsame⟩ :=
    instrument_inert ⟨true, false⟩ shownNodes shownEdges shownTarget rfl
  refine ⟨bare, hb, hsame ⟨48000.0, 512, 0, none, .empty, 0⟩
    [.process 1, .setConst "n:value" 0.25, .process 1] ?_ ?_ ?_⟩
  · rintro key ⟨e, he, hinj, hkey⟩ v hset
    have hname : key = "n:value" := by
      simp only [List.mem_cons, reduceCtorEq, Call.setConst.injEq, List.not_mem_nil, or_false,
        false_or] at hset
      exact hset.1
    exact hnot e he hinj (hname ▸ hkey)
  · intro f h
    cases h
  · intro r' f h hplay
    cases h
    cases hplay

end Patchbay
