import Mathlib
import Patchbay.Proofs.History

/-!
# What a program can come to

Whatever a host does, the program that is running was built from its roots and has since been set,
reset and stepped; that is how a renderer comes to every one of its states. Of a frame it is said
what the kernels were handed: the slots of the arguments still hold it when the frame is over, for
only later nodes write after them.
-/

set_option autoImplicit false

namespace Patchbay

open Patchbay.Expr

variable {rate : Float32} {left right : Expr}

/-- The programs of two roots that a host can come to. -/
inductive Attained (left right : Expr) : Program → Prop
  | build {rate : Float32} {p : Program} (built : Program.build left right rate = .ok p) :
      Attained left right p
  | setConst {p : Program} (before : Attained left right p) (key : String) (value : Float32) :
      Attained left right (p.setConst key value)
  | frame {p : Program} (before : Attained left right p) {f : Program.Frame}
      (stepped : Program.step p.sampleRate p.cells 0 p.values Program.scratch = .ok f) :
      Attained left right { p with cells := f.cells, values := f.values }
  | endBlock {p : Program} (before : Attained left right p) : Attained left right p.endBlock.2
  | reset {p : Program} (before : Attained left right p) : Attained left right p.reset

namespace Attained

theorem setAll {p : Program} (h : Attained left right p) (settings : List (String × Float32)) :
    Attained left right (settings.foldl (fun p s => p.setConst s.1 s.2) p) := by
  induction settings generalizing p with
  | nil => exact h
  | cons s settings ih => exact ih (h.setConst s.1 s.2)

theorem frames {blockSize n : Nat} {run run' : Renderer.Run} (h : Attained left right run.program)
    (hf : Renderer.Run.frames blockSize n run = .ok run') : Attained left right run'.program := by
  induction n generalizing run with
  | zero =>
    cases hf
    exact h
  | succ n ih =>
    rw [Renderer.Run.frames] at hf
    split at hf
    · next between hframe =>
      obtain ⟨f, hstep, -, hprogram⟩ := Renderer.frame_ok hframe
      apply ih _ hf
      rcases hprogram with hp | hp
      · rw [hp]
        exact h.frame hstep
      · rw [hp]
        exact (h.frame hstep).endBlock
    · cases hf

end Attained

namespace Renderer

/-- What is loaded has been come to from its roots. -/
def Grown (r : Renderer) : Prop :=
  ∀ l, r.loaded = some l → Attained l.leftRoot l.rightRoot l.program

theorem new_grown {r : Renderer} (h : new rate = .ok r) : r.Grown := by
  obtain ⟨-, rfl⟩ := new_eq h
  rintro l ⟨⟩

theorem process_grown {r r' : Renderer} (h : r.Grown) {n : Nat} {heard : Heard Stereo}
    (hp : r.process n = .ok (heard, r')) : r'.Grown := by
  obtain ⟨sampleRate, blockSize, pos, loaded, bus, frames⟩ := r
  cases loaded with
  | none =>
    cases hp
    exact h
  | some l =>
    rw [process] at hp
    split at hp
    · cases hp
    · next hrun =>
      cases hp
      rintro l' ⟨⟩
      exact (h l rfl).frames hrun

theorem obey_grown {r r' : Renderer} (h : r.Grown) {c : Control} {a : Answer}
    (hc : r.obey c = .ok (a, r')) : r'.Grown := by
  cases c with
  | load left right =>
    obtain ⟨-, hl⟩ | ⟨-, rfl⟩ := settle_eq hc
    · obtain ⟨p, hb, rfl⟩ := load_eq hl
      rintro l ⟨⟩
      exact .build hb
    · exact h
  | clear =>
    cases hc
    rintro l ⟨⟩
  | setConst key value =>
    rw [obey] at hc
    split at hc
    · next hs =>
      cases hc
      obtain ⟨l, p, hl, hp, rfl⟩ := setConst?_eq hs
      rintro l' ⟨⟩
      have hset := (h l hl).setConst key value
      rwa [Program.setConst, hp] at hset
    · cases hc
      exact h
  | setSampleRate rate =>
    obtain ⟨-, hs⟩ | ⟨-, rfl⟩ := settle_eq hc
    · obtain ⟨-, ⟨hnone, rfl⟩ | ⟨l, p, hl, hb, rfl⟩⟩ := setSampleRate_eq hs
      · exact h
      · rintro l' ⟨⟩
        exact (Attained.build hb).setAll l.overrides
    · exact h
  | withBlockSize n =>
    cases hc
    exact h
  | reset =>
    cases hc
    intro l hl
    obtain ⟨l', hl', rfl⟩ := Option.map_eq_some_iff.1 hl
    exact (h l' hl').reset
  | process n =>
    obtain ⟨result, hp, heq⟩ := map_eq_ok hc
    cases heq
    exact process_grown h hp
  | processBlock left right =>
    obtain ⟨result, hp, heq⟩ := map_eq_ok hc
    cases heq
    rcases processBlock_eq hp with heq | ⟨n, stereo, hn⟩
    · rwa [heq]
    · exact process_grown h hn
  | flush =>
    cases hc
    obtain ⟨sampleRate, blockSize, pos, loaded, bus, frames⟩ := r
    cases loaded with
    | none => exact h
    | some l =>
      rintro l' ⟨⟩
      exact (h l rfl).endBlock
  | subscribe tag listener =>
    cases hc
    exact h
  | unsubscribe tag =>
    cases hc
    exact h

theorem perform_grown (history : List Control) {r r' : Renderer} (h : r.Grown)
    {log : List (Control × Answer)} (hp : r.perform history = .ok (log, r')) : r'.Grown :=
  perform_keeps (fun _ _ _ _ h hc => obey_grown h hc) history h hp

end Renderer

namespace Program

theorem handed_congr {nodes : List Expr} {values values' : Array Float32} {e : Expr}
    (h : ∀ c ∈ e.children, values'.getD (slotOf nodes c) 0.0 = values.getD (slotOf nodes c) 0.0)
    (i : Nat) : handed nodes values' e i = handed nodes values e i := by
  rw [handed, handed]
  cases hc : e.children[i]? with
  | none => rfl
  | some c => exact h c (List.mem_of_getElem? hc)

/-- What holds of kernels after a frame together with what their nodes were handed. The slots before
the cells are not written, so they hold after the frame what was read in it. -/
theorem step_handed {R : Expr → Kernel → Prop} {Q : Expr → Kernel → (Nat → Float32) → Prop}
    (hQ : ∀ e k arg s given, R e k → k.tick arg rate = .ok s → (∀ i < e.op.arity, given i = arg i) →
      Q e s.kernel given)
    {nodes : List Expr} (hlist : Listed nodes) (pre post : List Expr) {cells : List Cell}
    {values scratch : Array Float32} (hn : nodes = pre ++ post)
    (hcells : List.Forall₂ (fun e c => c.args = argSlots nodes e ∧ R e c.kernel) post cells)
    (hzero : values.getD 0 0.0 = 0.0) (hw : scratch.size = Program.scratch.size)
    {f : Frame} (hf : step rate cells (pre.length + 1) values scratch = .ok f) :
    (∀ slot ≤ pre.length, f.values.getD slot 0.0 = values.getD slot 0.0) ∧
      List.Forall₂ (fun e c => c.args = argSlots nodes e ∧ Q e c.kernel (handed nodes f.values e))
        post f.cells := by
  induction hcells generalizing pre values scratch f with
  | nil =>
    cases hf
    exact ⟨fun _ _ => rfl, .nil⟩
  | @cons e c post cells hec hrest ih =>
    obtain ⟨kernel, args⟩ := c
    obtain ⟨hargs, hR⟩ := hec
    simp only at hargs hR
    subst hargs
    obtain ⟨hch, -⟩ := hlist pre post e hn
    have hwrite (x : Float32) (slot : Nat) (hslot : slot ≤ pre.length) :
        (values.setIfInBounds (pre.length + 1) x).getD slot 0.0 = values.getD slot 0.0 := by
      simp [Array.getD_eq_getD_getElem?, show pre.length + 1 ≠ slot by omega]
    rw [step] at hf
    split at hf
    · cases hf
    · next s hs =>
      split at hf
      · cases hf
      · next cells' values' raised hrec =>
        cases hf
        have hscratch : (fetch values 0 (argSlots nodes e) scratch).size = Program.scratch.size := by
          rw [fetch_size, hw]
        have hnext := fun f => @ih (pre ++ [e]) _ _ (by simp [hn])
          ((hwrite s.value 0 (Nat.zero_le _)).trans hzero) hscratch f
        rw [List.length_append, List.length_singleton] at hnext
        obtain ⟨hkept, hrest'⟩ := hnext _ hrec
        have hbefore (slot : Nat) (hslot : slot ≤ pre.length) :
            values'.getD slot 0.0 = values.getD slot 0.0 :=
          (hkept slot (by omega)).trans (hwrite s.value slot hslot)
        refine ⟨hbefore, .cons ⟨rfl, hQ e kernel _ s _ hR hs fun i hi => ?_⟩ hrest'⟩
        rw [fetch_handed hzero hw hi]
        exact handed_congr (fun c hc => hbefore _ (slotOf_le hn (hch c hc))) i

end Program

variable {R : Expr → Kernel → Prop} {p : Program}

theorem step_laid_handed {Q : Expr → Kernel → (Nat → Float32) → Prop}
    (hQ : ∀ e k arg s given, R e k → k.tick arg rate = .ok s → (∀ i < e.op.arity, given i = arg i) →
      Q e s.kernel given)
    (hs : Coherent (under [left, right])) (h : Laid R rate left right p) {f : Program.Frame}
    (hf : Program.step p.sampleRate p.cells 0 p.values Program.scratch = .ok f) :
    Laid (fun e k => Q e k (Program.handed (nodesOf [left, right]) f.values e)) rate left right
      { p with cells := f.cells, values := f.values } := by
  obtain ⟨cells, g, hall, hg, rfl⟩ := h.frame_eq hf
  have hzero : (p.values.setIfInBounds 0 0.0).getD 0 0.0 = 0.0 := by
    simp [Array.getD_eq_getD_getElem?, show 0 < p.values.size by rw [h.values]; omega]
  obtain ⟨-, hall'⟩ := Program.step_handed hQ (listed_nodesOf _ hs) [] _ rfl hall hzero rfl hg
  obtain ⟨-, hsize⟩ := step_forall₂ (R := fun _ _ => True) (fun _ _ _ _ _ _ => trivial)
    (hall.imp fun e c hc => ⟨hc.1, trivial⟩) hg
  exact h.renew hall' (by rw [hsize, Array.size_setIfInBounds])

end Patchbay
