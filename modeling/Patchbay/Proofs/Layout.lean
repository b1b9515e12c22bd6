import Mathlib
import Patchbay.Proofs.Session

/-!
# Programs node by node

What holds of every kernel when it is set up, and goes on to hold whenever a kernel is stepped or a
constant is set, holds throughout a run. The cells stay where they are: each belongs to one node and
reads the slots of its children.
-/

set_option autoImplicit false

namespace Patchbay

open Patchbay.Expr

variable {R R' : Expr → Kernel → Prop} {rate : Float32} {left right : Expr} {p : Program}

/-- Behind the zero a program has a cell for every node, and something holds of its kernel. -/
structure Laid (R : Expr → Kernel → Prop) (rate : Float32) (left right : Expr) (p : Program) :
    Prop where
  cells : ∃ cells, p.cells = Program.zeroCell :: cells ∧
    List.Forall₂ (fun e c => c.args = Program.argSlots (nodesOf [left, right]) e ∧ R e c.kernel)
      (nodesOf [left, right]) cells
  values : p.values.size = (nodesOf [left, right]).length + 1
  constants : p.constants = Program.keyedSlots (nodesOf [left, right])
  taps : p.taps = (tapsOf (nodesOf [left, right])).map Tap.tag
  leftSlot : p.left = Program.slotOf (nodesOf [left, right]) left
  rightSlot : p.right = Program.slotOf (nodesOf [left, right]) right
  sampleRate : p.sampleRate = rate

theorem build_laid (h : Program.build left right rate = .ok p)
    (hR : ∀ e k, Kernel.setup e.op e.key rate = .ok k → R e k) : Laid R rate left right p := by
  obtain ⟨cells, hcells, rfl⟩ := (build_eq_ok_iff p).1 h
  refine ⟨⟨cells, rfl, hcells.imp fun e c hc => ?_⟩, ?_, rfl, rfl, rfl, rfl, rfl⟩
  · obtain ⟨k, hk, rfl⟩ := (cellOf_ok_iff _ _ _).1 hc
    exact ⟨rfl, hR e k hk⟩
  · simp [hcells.length_eq]

/-- Something that holds of a kernel still does after a frame. -/
def Steady (R : Expr → Kernel → Prop) (rate : Float32) : Prop :=
  ∀ e k arg s, R e k → k.tick arg rate = .ok s → R e s.kernel

theorem step_forall₂ {slots : Expr → List Nat} (hR : Steady R rate) {nodes : List Expr}
    {cells : List Cell} (h : List.Forall₂ (fun e c => c.args = slots e ∧ R e c.kernel) nodes cells)
    {slot : Nat} {values scratch : Array Float32} {f : Program.Frame}
    (hf : Program.step rate cells slot values scratch = .ok f) :
    List.Forall₂ (fun e c => c.args = slots e ∧ R e c.kernel) nodes f.cells ∧
      f.values.size = values.size := by
  induction h generalizing slot values scratch f with
  | nil =>
    cases hf
    exact ⟨.nil, rfl⟩
  | @cons e c nodes cells hc hrest ih =>
    obtain ⟨kernel, args⟩ := c
    rw [Program.step] at hf
    split at hf
    · cases hf
    · next s hs =>
      split at hf
      · cases hf
      · next cells' values' raised hrec =>
        cases hf
        obtain ⟨hcells, hsize⟩ := ih hrec
        refine ⟨.cons ⟨hc.1, hR e _ _ s hc.2 hs⟩ hcells, ?_⟩
        rw [hsize, Array.size_setIfInBounds]

/-- A frame of a program is one of the cells behind the zero. -/
theorem Laid.frame_eq (h : Laid R rate left right p) {f : Program.Frame}
    (hf : Program.step p.sampleRate p.cells 0 p.values Program.scratch = .ok f) :
    ∃ cells g, List.Forall₂
        (fun e c => c.args = Program.argSlots (nodesOf [left, right]) e ∧ R e c.kernel)
        (nodesOf [left, right]) cells ∧
      Program.step rate cells 1 (p.values.setIfInBounds 0 0.0) Program.scratch = .ok g ∧
      f = { g with cells := Program.zeroCell :: g.cells } := by
  obtain ⟨cells, hcells, hall⟩ := h.cells
  rw [hcells, h.sampleRate] at hf
  simp only [Program.step, Program.zeroCell, Program.fetch, Kernel.tick] at hf
  split at hf
  · cases hf
  · next cells' values' raised hrec =>
    cases hf
    exact ⟨cells, _, hall, hrec, rfl⟩

/-- Other cells for the same nodes. -/
theorem Laid.renew (h : Laid R rate left right p) {cells : List Cell} {values : Array Float32}
    (hcells : List.Forall₂
      (fun e c => c.args = Program.argSlots (nodesOf [left, right]) e ∧ R' e c.kernel)
      (nodesOf [left, right]) cells) (hvalues : values.size = p.values.size) :
    Laid R' rate left right { p with cells := Program.zeroCell :: cells, values := values } :=
  ⟨⟨cells, rfl, hcells⟩, hvalues.trans h.values, h.constants, h.taps, h.leftSlot, h.rightSlot,
    h.sampleRate⟩

theorem step_laid (hR : Steady R rate) (h : Laid R rate left right p) {f : Program.Frame}
    (hf : Program.step p.sampleRate p.cells 0 p.values Program.scratch = .ok f) :
    Laid R rate left right { p with cells := f.cells, values := f.values } := by
  obtain ⟨cells, g, hall, hg, rfl⟩ := h.frame_eq hf
  obtain ⟨hall', hsize⟩ := step_forall₂ hR hall hg
  exact h.renew hall' (by rw [hsize, Array.size_setIfInBounds])

theorem Laid.imp (hR : ∀ e k, R e k → R' e k) (h : Laid R rate left right p) :
    Laid R' rate left right p := by
  obtain ⟨⟨cells, hcells, hall⟩, hvalues, hconst, htaps, hleft, hright, hrate⟩ := h
  exact ⟨⟨cells, hcells, hall.imp fun e c hc => ⟨hc.1, hR e _ hc.2⟩⟩, hvalues, hconst, htaps, hleft,
    hright, hrate⟩

/-- Something holds of a kernel for every node. -/
theorem Laid.node (h : Laid R rate left right p) {e : Expr} (he : e ∈ nodesOf [left, right]) :
    ∃ k, R e k := by
  obtain ⟨cells, -, hall⟩ := h.cells
  obtain ⟨c, -, hk⟩ := (exists_forall₂ _ _).1 ⟨cells, hall⟩ e he
  exact ⟨c.kernel, hk⟩

/-- The cell of a node stands in its slot. -/
theorem Laid.cell_slot (h : Laid R rate left right p) (hs : Coherent (under [left, right]))
    {e : Expr} (he : e ∈ under [left, right]) :
    ∃ k, p.cells[Program.slotOf (nodesOf [left, right]) e]? =
      some ⟨k, Program.argSlots (nodesOf [left, right]) e⟩ ∧ R e k := by
  obtain ⟨cells, hcells, hall⟩ := h.cells
  obtain ⟨i, hi, rfl⟩ := List.getElem_of_mem ((mem_nodesOf _ hs e).2 he)
  obtain ⟨hlen, hget⟩ := List.forall₂_iff_get.1 hall
  obtain ⟨hargs, hk⟩ := hget i hi (hlen ▸ hi)
  refine ⟨_, ?_, hk⟩
  rw [List.get_eq_getElem, List.get_eq_getElem] at hargs
  rw [hcells, Program.slotOf_getElem (listed_nodesOf _ hs) i hi, List.getElem?_cons_succ,
    List.getElem?_eq_getElem (hlen ▸ hi), ← hargs]
  rfl

/-- Every cell behind the zero is that of a node. -/
theorem Laid.cell (h : Laid R rate left right p) {c : Cell} (hc : c ∈ p.cells) :
    c = Program.zeroCell ∨ ∃ e, R e c.kernel := by
  obtain ⟨cells, hcells, hall⟩ := h.cells
  rw [hcells, List.mem_cons] at hc
  refine hc.imp_right fun hc => ?_
  obtain ⟨e, -, hk⟩ := (exists_forall₂ _ _).1 ⟨_, hall.flip⟩ c hc
  exact ⟨e, hk⟩

/-- A program of kernels that run is playing. -/
theorem Laid.playing {held : Settings} {current : String → Option Float32} {t : Nat}
    (h : Laid (Runs rate held current t) rate left right p) :
    Playing rate held current t left right p := by
  obtain ⟨⟨cells, hcells, hall⟩, hvalues, hconst, -, hleft, hright, hrate⟩ := h
  exact ⟨⟨cells, hcells, hall.imp fun e c hc => ⟨hc.1, hc.2⟩⟩, hvalues, hconst, hleft, hright, hrate⟩

/-- What holds of running kernels when they are handed what their nodes take in holds after a
frame, and so does what is said of the events they raise. -/
theorem step_laid_fed {P Q : Expr → Kernel → Prop} {S : Expr → Option Raised → Prop}
    {held : Settings} {current : String → Option Float32} {t : Nat}
    (hs : Coherent (under [left, right])) (hc : held t = current)
    (hP : ∀ e k arg s, P e k → Fed rate held t e arg → k.tick arg rate = .ok s →
      Q e s.kernel ∧ S e s.raised)
    (h : Laid (fun e k => Runs rate held current t e k ∧ P e k) rate left right p)
    {f : Program.Frame}
    (hf : Program.step p.sampleRate p.cells 0 p.values Program.scratch = .ok f) :
    Laid (fun e k => Runs rate held current (t + 1) e k ∧ Q e k) rate left right
        { p with cells := f.cells, values := f.values } ∧
      ∃ raised, List.Forall₂ S (nodesOf [left, right]) raised ∧
        f.raised = raised.flatMap Option.toList := by
  obtain ⟨cells, g, hall, hg, rfl⟩ := h.frame_eq hf
  have hvalues := h.values
  have hstep := Program.step_tracks hc hP (listed_nodesOf _ hs) [] (nodesOf [left, right]) cells
    (p.values.setIfInBounds 0 0.0) Program.scratch rfl
    (hall.imp fun e c hc => ⟨⟨hc.1, hc.2.1⟩, hc.2.2⟩) (Program.holds_nil (by omega))
    (by rw [Array.size_setIfInBounds, hvalues]) rfl
  simp only [List.length_nil, hg] at hstep
  obtain ⟨hsize, -, hcells, hraised⟩ := hstep
  exact ⟨h.renew (hcells.imp fun e c hc => ⟨hc.1.args, hc.1.runs, hc.2⟩)
    (hsize.trans hvalues.symm), hraised⟩

theorem endBlock_laid (hR : ∀ e k, R e k → R' e k.endBlock.1) (h : Laid R rate left right p) :
    Laid R' rate left right p.endBlock.2 := by
  obtain ⟨⟨cells, hcells, hall⟩, hvalues, hconst, htaps, hleft, hright, hrate⟩ := h
  refine ⟨⟨cells.map fun c => ⟨c.kernel.endBlock.1, c.args⟩, ?_, ?_⟩, hvalues, hconst, htaps, hleft,
    hright, hrate⟩
  · simp [Program.endBlock, hcells, Program.zeroCell, Kernel.endBlock]
  · rw [List.forall₂_map_right_iff]
    exact hall.imp fun e c hc => ⟨hc.1, hR e _ hc.2⟩

theorem setConst_laid (hs : Coherent (under [left, right])) {key : String} {value : Float32}
    (hR : ∀ e k, R e k → R' e (if Program.constKey? e = some key then k.setConst value else k))
    (h : Laid R rate left right p) : Laid R' rate left right (p.setConst key value) := by
  have hlist := listed_nodesOf _ hs
  obtain ⟨⟨cells, hcells, hall⟩, hvalues, hconst, htaps, hleft, hright, hrate⟩ := h
  rw [Program.setConst_eq]
  refine ⟨⟨cells.mapIdx fun i c => if i + 1 ∈ p.slotsOf key then
    { c with kernel := c.kernel.setConst value } else c, ?_, ?_⟩, hvalues, hconst, htaps, hleft,
    hright, hrate⟩
  · rw [hcells, List.mapIdx_cons, if_neg (Program.zero_not_mem_slotsOf hlist hconst key)]
  · apply forall₂_setConst hlist hconst hall key value
    intro e c hc
    have hset := hR e c.kernel hc.2
    split
    · next hk => exact ⟨hc.1, by rwa [if_pos hk] at hset⟩
    · next hk => exact ⟨hc.1, by rwa [if_neg hk] at hset⟩

theorem frames_laid (hR : Steady R rate) (hR' : ∀ e k, R e k → R e k.endBlock.1)
    {blockSize n : Nat} {run run' : Renderer.Run} (h : Laid R rate left right run.program)
    (hf : Renderer.Run.frames blockSize n run = .ok run') :
    Laid R rate left right run'.program := by
  induction n generalizing run with
  | zero =>
    cases hf
    exact h
  | succ n ih =>
    rw [Renderer.Run.frames] at hf
    split at hf
    · next between hframe =>
      obtain ⟨f, hstep, -, hprogram⟩ := Renderer.frame_ok hframe
      have hlaid := step_laid hR h hstep
      apply ih _ hf
      rcases hprogram with hp | hp
      · rw [hp]
        exact hlaid
      · rw [hp]
        exact endBlock_laid hR' hlaid
    · cases hf

/-- A program is told by its slots and the kernels of its nodes. -/
theorem laid_unique (hR : ∀ e k k', R e k → R e k' → k = k') {p p' : Program}
    (h : Laid R rate left right p) (h' : Laid R rate left right p')
    (hvalues : p.values = p'.values) : p = p' := by
  obtain ⟨⟨cells, hcells, hall⟩, -, hconst, htaps, hleft, hright, hrate⟩ := h
  obtain ⟨⟨cells', hcells', hall'⟩, -, hconst', htaps', hleft', hright', hrate'⟩ := h'
  have hunique : Relator.RightUnique fun (e : Expr) (c : Cell) =>
      c.args = Program.argSlots (nodesOf [left, right]) e ∧ R e c.kernel := by
    rintro e ⟨kernel, args⟩ ⟨kernel', args'⟩ ⟨hargs, hk⟩ ⟨hargs', hk'⟩
    rw [Cell.mk.injEq]
    exact ⟨hR e _ _ hk hk', hargs.trans hargs'.symm⟩
  obtain rfl : cells = cells' := hunique.forall₂ hall hall'
  cases p
  cases p'
  simp only at *
  simp only [hcells, hcells', hvalues, hconst, hconst', htaps, htaps', hleft, hleft', hright,
    hright', hrate, hrate']

end Patchbay
