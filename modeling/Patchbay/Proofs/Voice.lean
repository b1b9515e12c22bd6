import Mathlib
import Patchbay.Proofs.Playback

/-!
# What can be heard of a program

The extremes a meter has gathered, the position in the block and the bus make a difference to
events only. Programs that differ in nothing else render the same samples and go on to do so.
-/

set_option autoImplicit false

namespace Patchbay

def Cell.voice (c : Cell) : Cell := { c with kernel := c.kernel.voice }

namespace Program

/-- All of a program that can be heard. -/
def voice (p : Program) : Program := { p with cells := p.cells.map Cell.voice }

theorem endBlock_voice (p : Program) : p.endBlock.2.voice = p.voice := by
  have hcells : p.endBlock.2.cells.map Cell.voice = p.cells.map Cell.voice := by
    rw [endBlock, List.map_map, List.map_map]
    apply List.map_congr_left
    intro c _
    simp only [Function.comp_apply, Cell.voice, Kernel.endBlock_voice]
  rw [voice, voice, hcells]
  rfl

theorem step_voice (rate : Float32) {cells cells' : List Cell}
    (h : cells.map Cell.voice = cells'.map Cell.voice) (slot : Nat)
    (values scratch : Array Float32) :
    (step rate cells slot values scratch).map (fun f => (f.cells.map Cell.voice, f.values)) =
      (step rate cells' slot values scratch).map fun f => (f.cells.map Cell.voice, f.values) := by
  induction cells generalizing cells' slot values scratch with
  | nil =>
    rw [List.map_nil, List.nil_eq, List.map_eq_nil_iff] at h
    rw [h]
  | cons c cells ih =>
    cases cells' with
    | nil => simp at h
    | cons c' cells' =>
      obtain ⟨kernel, args⟩ := c
      obtain ⟨kernel', args'⟩ := c'
      simp only [List.map_cons, List.cons.injEq, Cell.voice, Cell.mk.injEq] at h
      obtain ⟨⟨hkernel, rfl⟩, hcells⟩ := h
      rw [step, step]
      rcases map_eq_map (Kernel.tick_voice kernel kernel' hkernel
        (fun i => (fetch values 0 args scratch).getD i 0.0) rate)
        with ⟨e, hk, hk'⟩ | ⟨s, s', hk, hk', heq⟩
      · rw [hk, hk']
      · rw [Prod.mk.injEq] at heq
        rcases map_eq_map (ih hcells (slot + 1) (values.setIfInBounds slot s.value)
          (fetch values 0 args scratch)) with ⟨e, hs, hs'⟩ | ⟨f, f', hs, hs', heq'⟩
        · simp only [hk, hk', hs, heq.1 ▸ hs']
        · rw [Prod.mk.injEq] at heq'
          simp only [hk, hk', hs, heq.1 ▸ hs', Except.map, List.map_cons, Cell.voice, heq.2, heq'.1,
            heq'.2]

end Program

namespace Renderer

/-- All of a run that can be heard. -/
def Run.voice (run : Run) : Program × Stereo := (run.program.voice, run.out)

/-- A frame as far as it can be heard is a step and two samples. -/
theorem frame_voice (blockSize : Nat) (run : Run) :
    (run.frame blockSize).map Run.voice =
      (Program.step run.program.sampleRate run.program.cells 0 run.program.values
        Program.scratch).map fun f =>
          ({ run.program with cells := f.cells.map Cell.voice, values := f.values },
            run.out.push (f.values.getD run.program.left 0.0)
              (f.values.getD run.program.right 0.0)) := by
  cases hf : run.frame blockSize with
  | error e =>
    rw [frame_error hf]
    rfl
  | ok run' =>
    obtain ⟨f, hstep, hout, hprogram⟩ := frame_ok hf
    rw [hstep, Except.map, Except.map, Run.voice, hout]
    rcases hprogram with hp | hp
    · rw [hp]
      rfl
    · rw [hp, Program.endBlock_voice]
      rfl

theorem frame_alike {run run' : Run} (h : run.voice = run'.voice) (blockSize blockSize' : Nat) :
    (run.frame blockSize).map Run.voice = (run'.frame blockSize').map Run.voice := by
  obtain ⟨⟨cells, values, constants, taps, left, right, rate⟩, bus, pos, out, delivered⟩ := run
  obtain ⟨⟨cells', values', constants', taps', left', right', rate'⟩, bus', pos', out',
    delivered'⟩ := run'
  simp only [Run.voice, Program.voice, Prod.mk.injEq, Program.mk.injEq] at h
  obtain ⟨⟨hcells, rfl, rfl, rfl, rfl, rfl, rfl⟩, rfl⟩ := h
  rw [frame_voice, frame_voice]
  rcases map_eq_map (Program.step_voice rate hcells 0 values Program.scratch)
    with ⟨e, hs, hs'⟩ | ⟨f, f', hs, hs', heq⟩
  · rw [hs, hs']
  · rw [Prod.mk.injEq] at heq
    simp only [hs, hs', Except.map, heq.1, heq.2]

theorem frames_alike {run run' : Run} (h : run.voice = run'.voice) (blockSize blockSize' n : Nat) :
    (Run.frames blockSize n run).map Run.voice = (Run.frames blockSize' n run').map Run.voice := by
  induction n generalizing run run' with
  | zero => exact congrArg Except.ok h
  | succ n ih =>
    rw [Run.frames, Run.frames]
    rcases map_eq_map (frame_alike h blockSize blockSize')
      with ⟨e, hf, hf'⟩ | ⟨next, next', hf, hf', heq⟩
    · rw [hf, hf']
    · rw [hf, hf']
      exact ih heq

/-- All of a renderer that can be heard. -/
def voice (r : Renderer) : Option Program := r.loaded.map fun l => l.program.voice

/-- Renderers that sound alike render the same samples and sound alike afterwards. -/
theorem process_alike {r r' : Renderer} (h : r.voice = r'.voice) (n : Nat) :
    (r.process n).map (fun (heard, r) => (heard.value, r.voice)) =
      (r'.process n).map fun (heard, r) => (heard.value, r.voice) := by
  obtain ⟨rate, blockSize, pos, loaded, bus, frames⟩ := r
  obtain ⟨rate', blockSize', pos', loaded', bus', frames'⟩ := r'
  cases loaded with
  | none =>
    cases loaded' with
    | none => rfl
    | some l' => cases h
  | some l =>
    cases loaded' with
    | none => cases h
    | some l' =>
      obtain ⟨leftRoot, rightRoot, program, overrides⟩ := l
      obtain ⟨leftRoot', rightRoot', program', overrides'⟩ := l'
      have hprogram : program.voice = program'.voice := Option.some.inj h
      have hstart : Run.voice ⟨program, bus, pos, .empty, []⟩ =
          Run.voice ⟨program', bus', pos', .empty, []⟩ := by
        rw [Run.voice, Run.voice, hprogram]
      rw [process, process]
      rcases map_eq_map (frames_alike hstart blockSize blockSize' n)
        with ⟨e, hf, hf'⟩ | ⟨run, run', hf, hf', heq⟩
      · rw [hf, hf']
      · rw [Run.voice, Run.voice, Prod.mk.injEq] at heq
        rw [hf, hf']
        simp only [Except.map, voice, Option.map_some, heq.1, heq.2]

end Renderer

end Patchbay
