import Mathlib
import Patchbay.Proofs.Inertness
import Patchbay.Proofs.Likeness

/-!
# Rendering one expression

An expression that is rendered by itself gives a sample for each frame, unless some node has no
kernel or one of them stops. Expressions that sound alike are rendered as the same numbers, and
fail in the same cases for the same reason.
-/

set_option autoImplicit false

namespace Patchbay

open Patchbay.Expr

variable {rate : Float32}

/-- Two renderings of the same numbers, or two that fail for one reason. -/
inductive SameRendering : Except RenderError (Array Float32) →
    Except RenderError (Array Float32) → Prop
  | ok {xs ys : Array Float32} (h : List.Forall₂ Single.Same xs.toList ys.toList) :
      SameRendering (.ok xs) (.ok ys)
  | error (e : RenderError) : SameRendering (.error e) (.error e)

theorem mem_under_silent {e f : Expr} :
    f ∈ under [e, Renderer.silentRoot] ↔ f ∈ parts e ∨ f = Renderer.silentRoot := by
  simp [under, partsAll, parts, Renderer.silentRoot]

/-- What comes of rendering `n` frames of an expression: a sample for each of them, or the reason
why some node has no kernel, or the fault of a node that stops on the way. -/
inductive Rendered (rate : Float32) (n : Nat) (e : Expr) :
    Except RenderError (Array Float32) → Prop
  | ok {out : Array Float32} (sounds : Sounds rate n e)
      (samples : out.toList.map some = (List.range' 0 n).map (e.stream rate quiet)) :
      Rendered rate n e (.ok out)
  | unable {err : Kernel.SetupError} (first : failure? rate [e] = some err) :
      Rendered rate n e (.error (.ofSetup err))
  | stopped (start : Sounds rate 0 e) (stop : ¬Sounds rate n e) :
      Rendered rate n e (.error (.fault .emptyCutoffRange))

theorem load_mono {e : Expr} (hs : Coherent (under [e, Renderer.silentRoot])) (r : Renderer) :
    match r.load e Renderer.silentRoot with
    | .ok _ => Sounds r.sampleRate 0 e
    | .error err => ∃ first, failure? r.sampleRate [e] = some first ∧ err = .ofSetup first := by
  cases hl : r.load e Renderer.silentRoot with
  | error err =>
    obtain ⟨first, hb, rfl⟩ := (load_eq_error_iff r err).1 hl
    have hsilent : failure? r.sampleRate [Renderer.silentRoot] = none := rfl
    rw [build_error_iff hs, failure?_cons, hsilent, Option.or_none] at hb
    exact ⟨first, hb, rfl⟩
  | ok loaded =>
    have hkernels := (build_ok_iff hs).1 ((load_ok_iff r).1 ⟨loaded, hl⟩)
    exact fun f hf => ⟨hkernels f (mem_under_silent.2 (.inl hf)), by simp⟩

theorem process_mono {e : Expr} (hs : Coherent (under [e, Renderer.silentRoot]))
    {r loaded : Renderer} (hl : r.load e Renderer.silentRoot = .ok loaded)
    (hstart : Sounds r.sampleRate 0 e) (n : Nat) :
    match loaded.process n with
    | .ok (heard, _) => Sounds r.sampleRate n e ∧
        heard.value.left.toList.map some = (List.range' 0 n).map (e.stream r.sampleRate quiet)
    | .error f => ¬Sounds r.sampleRate n e ∧ f = .emptyCutoffRange := by
  obtain ⟨l, hloaded, hplay⟩ : ∃ l, loaded.loaded = some l ∧
      Playing r.sampleRate quiet (fun _ => none) 0 e Renderer.silentRoot l.program :=
    load_playing hl
  have hframes := frames_spec hs loaded.blockSize n (fun _ _ => rfl)
    ⟨l.program, loaded.bus, loaded.blockPos, .empty, []⟩ hplay
  simp only [Nat.zero_add] at hframes
  have hprocess := Renderer.process_loaded hloaded n
  cases hp : loaded.process n with
  | error f =>
    rw [hp] at hprocess
    simp only at hprocess
    rw [hprocess] at hframes
    obtain ⟨f, hf, i, hi, hend⟩ := hframes
    refine ⟨fun hsounds => ?_, frames_error hprocess⟩
    rcases mem_under_silent.1 hf with hf | rfl
    · have hsome := (hsounds f hf).2 i hi
      rw [hend] at hsome
      cases hsome
    · cases hend
  | ok result =>
    obtain ⟨heard, after⟩ := result
    rw [hp] at hprocess
    obtain ⟨run, hrun, hvalue, -⟩ := hprocess
    rw [hrun] at hframes
    obtain ⟨-, hgo, out, hears, hout⟩ := hframes
    rw [empty_append] at hout
    refine ⟨fun f hf => ⟨(hstart f hf).1, hgo f (mem_under_silent.2 (.inl hf))⟩, ?_⟩
    show heard.value.left.toList.map some = _
    rw [hvalue, hout]
    exact hears.left

theorem renderMono_rendered {e : Expr} (hs : Coherent (under [e, Renderer.silentRoot]))
    (hrate : Renderer.checkSampleRate rate = .ok ()) (n : Nat) :
    Rendered rate n e (renderMono e rate n) := by
  have hnew : Renderer.new rate =
      .ok ⟨rate, Renderer.defaultBlockSize, 0, none, .empty, 0⟩ := by
    rw [Renderer.new, hrate]
    rfl
  rw [renderMono, hnew, ok_bind]
  generalize hr : (⟨rate, Renderer.defaultBlockSize, 0, none, .empty, 0⟩ : Renderer) = r
  have hsample : r.sampleRate = rate := by rw [← hr]
  subst hsample
  have hload := load_mono hs r
  cases hl : r.load e Renderer.silentRoot with
  | error err =>
    rw [hl] at hload
    obtain ⟨first, hfirst, rfl⟩ := hload
    exact .unable hfirst
  | ok loaded =>
    rw [hl] at hload
    have hprocess := process_mono hs hl hload n
    rw [ok_bind]
    cases hp : loaded.process n with
    | error f =>
      rw [hp] at hprocess
      obtain ⟨hstop, rfl⟩ := hprocess
      exact .stopped hload hstop
    | ok result =>
      rw [hp] at hprocess
      exact .ok hprocess.1 hprocess.2

theorem Renderer.checkSampleRate_ok_iff :
    checkSampleRate rate = .ok () ↔ rate.isFinite = true ∧ (0.0 : Float32) < rate := by
  rw [checkSampleRate]
  split
  · next h => simpa using h
  · next h => simpa using h

theorem sameRendering_of_akin {e e' : Expr} (hs : Coherent (under [e, Renderer.silentRoot]))
    (hs' : Coherent (under [e', Renderer.silentRoot]))
    (h : Renderer.checkSampleRate rate = .ok () → Akin rate Single.Same e e') (n : Nat) :
    SameRendering (renderMono e rate n) (renderMono e' rate n) := by
  cases hrate : Renderer.checkSampleRate rate with
  | error err =>
    rw [renderMono, renderMono, Renderer.new, hrate]
    exact .error err
  | ok u =>
    have hakin := h hrate
    have hstart := hakin.sounds 0
    have hend := hakin.sounds n
    have hrendered := renderMono_rendered hs hrate n
    have hrendered' := renderMono_rendered hs' hrate n
    generalize renderMono e rate n = xs at hrendered ⊢
    generalize renderMono e' rate n = ys at hrendered' ⊢
    -- what comes of the one rules out all that does not come of the other
    cases hrendered with
    | ok hsounds hsamples =>
      cases hrendered' with
      | ok _ hsamples' =>
        exact .ok (forall₂_of_streams (fun _ _ _ hx hy => hakin.same hx hy) _ _ _ hsamples
          hsamples')
      | unable hfirst' => exact absurd (hend.1 hsounds) (not_sounds_of_failure hfirst' n)
      | stopped _ hstop => exact absurd (hend.1 hsounds) hstop
    | unable hfirst =>
      cases hrendered' with
      | ok hsounds' _ => exact absurd (hend.2 hsounds') (not_sounds_of_failure hfirst n)
      | unable hfirst' =>
        obtain rfl := Option.some.inj (hfirst.symm.trans (hakin.failure.trans hfirst'))
        exact .error _
      | stopped hstart' _ => exact absurd (hstart.2 hstart') (not_sounds_of_failure hfirst 0)
    | stopped hstart₀ hstop =>
      cases hrendered' with
      | ok hsounds' _ => exact absurd (hend.2 hsounds') hstop
      | unable hfirst' => exact absurd (hstart.1 hstart₀) (not_sounds_of_failure hfirst' 0)
      | stopped _ _ => exact .error _

end Patchbay
