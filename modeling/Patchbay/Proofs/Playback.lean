import Mathlib
import Patchbay.Proofs.Fallible
import Patchbay.Proofs.Refinement

/-!
# Frames of a program

A program is built if every node has a kernel. From then on one invariant says where it stands
before each frame, and a run of frames leaves the streams of the two roots in its output. A
program steps the nodes that nothing reads as well, so it gets as far as all of its nodes do.
-/

set_option autoImplicit false

namespace Patchbay

open Patchbay.Expr

variable {rate : Float32} {held : Settings} {current : String → Option Float32}
variable {left right : Expr}

/-- The program of two roots before frame `t`, its constants as they are set. -/
structure Playing (rate : Float32) (held : Settings) (current : String → Option Float32) (t : Nat)
    (left right : Expr) (p : Program) : Prop where
  cells : ∃ cells, p.cells = Program.zeroCell :: cells ∧
    List.Forall₂ (Program.Tracks rate held current t (nodesOf [left, right]))
      (nodesOf [left, right]) cells
  values : p.values.size = (nodesOf [left, right]).length + 1
  constants : p.constants = Program.keyedSlots (nodesOf [left, right])
  leftSlot : p.left = Program.slotOf (nodesOf [left, right]) left
  rightSlot : p.right = Program.slotOf (nodesOf [left, right]) right
  sampleRate : p.sampleRate = rate

theorem exists_forall₂ {α β : Type} (R : α → β → Prop) (xs : List α) :
    (∃ ys, List.Forall₂ R xs ys) ↔ ∀ x ∈ xs, ∃ y, R x y := by
  induction xs with
  | nil => simp
  | cons x xs ih =>
    rw [List.forall_mem_cons, ← ih]
    constructor
    · rintro ⟨zs, h⟩
      obtain ⟨y, ys, hy, hys, -⟩ := List.forall₂_cons_left_iff.1 h
      exact ⟨⟨y, hy⟩, ys, hys⟩
    · rintro ⟨⟨y, hy⟩, ys, hys⟩
      exact ⟨y :: ys, .cons hy hys⟩

theorem runs_fresh {e : Expr} {k : Kernel} (h : Kernel.setup e.op e.key rate = .ok k) :
    Runs rate held (fun _ => none) 0 e k := by
  by_cases hc : ∃ v, e.op = .const v
  · obtain ⟨v, hv⟩ := hc
    rw [hv] at h
    cases h
    have hn : (e.key.bind fun _ => (none : Option Float32)).getD v = v := by cases e.key <;> rfl
    have hk : Runs rate held (fun _ => none) 0 e
        (.const ((e.key.bind fun _ => (none : Option Float32)).getD v)) := .const v hv
    rwa [hn] at hk
  · exact .kernel k k k (fun v hv => hc ⟨v, hv⟩) h rfl rfl

theorem cellOf_ok_iff (nodes : List Expr) (e : Expr) (c : Cell) :
    Program.cellOf nodes rate e = .ok c ↔
      ∃ k, Kernel.setup e.op e.key rate = .ok k ∧ c = ⟨k, Program.argSlots nodes e⟩ := by
  rw [Program.cellOf]
  cases Kernel.setup e.op e.key rate with
  | error f => simp
  | ok k => simp [eq_comm]

theorem build_eq_ok_iff (p : Program) :
    Program.build left right rate = .ok p ↔
      ∃ cells, List.Forall₂ (fun e c => Program.cellOf (nodesOf [left, right]) rate e = .ok c)
        (nodesOf [left, right]) cells ∧
      p = ⟨Program.zeroCell :: cells, .replicate (cells.length + 1) 0.0,
        Program.keyedSlots (nodesOf [left, right]), (tapsOf (nodesOf [left, right])).map Tap.tag,
        Program.slotOf (nodesOf [left, right]) left, Program.slotOf (nodesOf [left, right]) right,
        rate⟩ := by
  simp only [← mapM_ok_iff, Program.build]
  cases (nodesOf [left, right]).mapM (Program.cellOf (nodesOf [left, right]) rate) with
  | error f =>
    constructor
    · intro h; cases h
    · rintro ⟨cells, h, -⟩; cases h
  | ok cells =>
    constructor
    · intro h; cases h; exact ⟨cells, rfl, rfl⟩
    · rintro ⟨cells', h, rfl⟩; cases h; rfl

theorem build_ok_iff (hs : Coherent (under [left, right])) :
    (∃ p, Program.build left right rate = .ok p) ↔
      ∀ e ∈ under [left, right], ∃ k, Kernel.setup e.op e.key rate = .ok k := by
  have hp : (∃ p, Program.build left right rate = .ok p) ↔ ∃ cells, List.Forall₂
      (fun e c => Program.cellOf (nodesOf [left, right]) rate e = .ok c)
      (nodesOf [left, right]) cells := by
    simp only [build_eq_ok_iff]
    constructor
    · rintro ⟨p, cells, hcells, -⟩
      exact ⟨cells, hcells⟩
    · rintro ⟨cells, hcells⟩
      exact ⟨_, cells, hcells, rfl⟩
  rw [hp, exists_forall₂]
  simp only [cellOf_ok_iff, mem_nodesOf _ hs]
  constructor
  · intro h e he
    obtain ⟨-, k, hk, -⟩ := h e he
    exact ⟨k, hk⟩
  · intro h e he
    obtain ⟨k, hk⟩ := h e he
    exact ⟨_, k, hk, rfl⟩

theorem build_error (hs : Coherent (under [left, right])) {err : Kernel.SetupError}
    (h : Program.build left right rate = .error err) :
    ∃ e ∈ under [left, right], Kernel.setup e.op e.key rate = .error err := by
  cases hm : (nodesOf [left, right]).mapM (Program.cellOf (nodesOf [left, right]) rate) with
  | ok cells =>
    simp only [Program.build, hm] at h
    cases h
  | error err' =>
    simp only [Program.build, hm] at h
    cases h
    obtain ⟨e, he, hcell⟩ := mapM_error hm
    refine ⟨e, (mem_nodesOf _ hs e).1 he, ?_⟩
    rw [Program.cellOf] at hcell
    split at hcell
    · cases hcell
    · next hsetup =>
      cases hcell
      exact hsetup

theorem build_playing {p : Program} (h : Program.build left right rate = .ok p) :
    Playing rate held (fun _ => none) 0 left right p := by
  obtain ⟨cells, hcells, rfl⟩ := (build_eq_ok_iff p).1 h
  refine ⟨⟨cells, rfl, hcells.imp fun e c hc => ?_⟩, ?_, rfl, rfl, rfl, rfl⟩
  · obtain ⟨k, hk, rfl⟩ := (cellOf_ok_iff _ _ _).1 hc
    exact ⟨rfl, runs_fresh hk⟩
  · simp [hcells.length_eq]

theorem runs_endBlock {t : Nat} {e : Expr} {k : Kernel} (h : Runs rate held current t e k) :
    Runs rate held current t e k.endBlock.1 := by
  cases h with
  | const v op => exact .const v op
  | kernel fresh now k op setup before voice =>
    exact .kernel fresh now _ op setup before ((Kernel.endBlock_voice k).trans voice)

theorem endBlock_playing {t : Nat} {p : Program}
    (h : Playing rate held current t left right p) :
    Playing rate held current t left right p.endBlock.2 := by
  obtain ⟨⟨cells, hp, hcells⟩, hvalues, hconst, hleft, hright, hrate⟩ := h
  refine ⟨⟨cells.map fun c => ⟨c.kernel.endBlock.1, c.args⟩, ?_, ?_⟩, hvalues, hconst, hleft,
    hright, hrate⟩
  · simp [Program.endBlock, hp, Program.zeroCell, Kernel.endBlock]
  · rw [List.forall₂_map_right_iff]
    exact hcells.imp fun e c hc => ⟨hc.args, runs_endBlock hc.runs⟩

/-- One pass over the cells: every slot holds what its node yields and every node goes on, or the
stream of some node ends. -/
theorem step_playing (hs : Coherent (under [left, right])) {t : Nat} (hc : held t = current)
    {p : Program} (h : Playing rate held current t left right p) :
    match Program.step p.sampleRate p.cells 0 p.values Program.scratch with
    | .ok f => Playing rate held current (t + 1) left right
          { p with cells := f.cells, values := f.values } ∧
        ∀ e ∈ under [left, right], e.stream rate held t =
          some (f.values.getD (Program.slotOf (nodesOf [left, right]) e) 0.0)
    | .error _ => ∃ e ∈ under [left, right], e.stream rate held t = none := by
  obtain ⟨⟨tail, hcells, htail⟩, hvalues, hconst, hleft, hright, hrate⟩ := h
  subst hrate
  have hstep := Program.step_spec hc (listed_nodesOf _ hs) [] (nodesOf [left, right]) tail
    (p.values.setIfInBounds 0 0.0) Program.scratch rfl htail (Program.holds_nil (by omega))
    (by rw [Array.size_setIfInBounds, hvalues]) rfl
  have hmem := mem_nodesOf _ hs
  rw [hcells]
  simp only [Program.step, Program.zeroCell, Program.fetch, Kernel.tick]
  simp only [List.length_nil] at hstep
  cases hf : Program.step p.sampleRate tail (0 + 1) (p.values.setIfInBounds 0 0.0)
      Program.scratch with
  | error f =>
    rw [hf] at hstep
    obtain ⟨e, he, hend⟩ := hstep
    exact ⟨e, (hmem e).1 he, hend⟩
  | ok f =>
    rw [hf] at hstep
    obtain ⟨hsize, hhold, hcells'⟩ := hstep
    exact ⟨⟨⟨f.cells, rfl, hcells'⟩, hsize, hconst, hleft, hright, rfl⟩,
      fun e he => hhold.slots e ((hmem e).2 he)⟩

namespace Renderer

theorem frame_ok {blockSize : Nat} {run run' : Run} (h : run.frame blockSize = .ok run') :
    ∃ f, Program.step run.program.sampleRate run.program.cells 0 run.program.values
        Program.scratch = .ok f ∧
      run'.out = run.out.push (f.values.getD run.program.left 0.0)
        (f.values.getD run.program.right 0.0) ∧
      (run'.program = { run.program with cells := f.cells, values := f.values } ∨
        run'.program =
          (Program.endBlock { run.program with cells := f.cells, values := f.values }).2) := by
  obtain ⟨⟨cells, values, constants, taps, l, r, sampleRate⟩, bus, pos, out, delivered⟩ := run
  simp only [Run.frame] at h
  split at h
  · cases h
  · next f hf =>
    refine ⟨_, hf, ?_⟩
    split at h
    · cases h
      exact ⟨rfl, .inr rfl⟩
    · cases h
      exact ⟨rfl, .inl rfl⟩

theorem frame_error {blockSize : Nat} {run : Run} {e : KernelFault}
    (h : run.frame blockSize = .error e) :
    Program.step run.program.sampleRate run.program.cells 0 run.program.values
      Program.scratch = .error e := by
  obtain ⟨⟨cells, values, constants, taps, l, r, sampleRate⟩, bus, pos, out, delivered⟩ := run
  simp only [Run.frame] at h
  split at h
  · next hf =>
    cases h
    exact hf
  · split at h <;> cases h

end Renderer

theorem frame_spec (hs : Coherent (under [left, right])) {t : Nat} (hc : held t = current)
    (blockSize : Nat) (run : Renderer.Run)
    (h : Playing rate held current t left right run.program) :
    match run.frame blockSize with
    | .ok run' => Playing rate held current (t + 1) left right run'.program ∧
        (∀ e ∈ under [left, right], (e.stream rate held t).isSome) ∧
        ∃ x y, left.stream rate held t = some x ∧ right.stream rate held t = some y ∧
          run'.out = run.out.push x y
    | .error _ => ∃ e ∈ under [left, right], e.stream rate held t = none := by
  have hstep := step_playing hs hc h
  cases hf : run.frame blockSize with
  | error e =>
    rw [Renderer.frame_error hf] at hstep
    exact hstep
  | ok run' =>
    obtain ⟨f, hf', hout, hprogram⟩ := Renderer.frame_ok hf
    rw [hf'] at hstep
    obtain ⟨hplay, hvalues⟩ := hstep
    refine ⟨?_, fun e he => by simp [hvalues e he], _, _, hvalues left ?_, hvalues right ?_, ?_⟩
    · rcases hprogram with hp | hp <;> rw [hp]
      · exact hplay
      · exact endBlock_playing hplay
    · simp [under, partsAll, mem_parts]
    · simp [under, partsAll, mem_parts]
    · rw [hout, h.leftSlot, h.rightSlot]

namespace Stereo

def append (s u : Stereo) : Stereo := ⟨s.left ++ u.left, s.right ++ u.right⟩

end Stereo

/-- What is heard of two roots in `n` frames from frame `t` on. -/
structure Hears (rate : Float32) (held : Settings) (left right : Expr) (t n : Nat)
    (out : Stereo) : Prop where
  left : out.left.toList.map some = (List.range' t n).map (left.stream rate held)
  right : out.right.toList.map some = (List.range' t n).map (right.stream rate held)

theorem hears_empty (t : Nat) : Hears rate held left right t 0 .empty := ⟨rfl, rfl⟩

theorem hears_append {t m n : Nat} {a b : Stereo} (ha : Hears rate held left right t m a)
    (hb : Hears rate held left right (t + m) n b) :
    Hears rate held left right t (m + n) (a.append b) := by
  refine ⟨?_, ?_⟩ <;> rw [← List.range'_append_1, List.map_append]
  · rw [← ha.left, ← hb.left]
    simp [Stereo.append]
  · rw [← ha.right, ← hb.right]
    simp [Stereo.append]

theorem hears_one {t : Nat} {x y : Float32} (hx : left.stream rate held t = some x)
    (hy : right.stream rate held t = some y) :
    Hears rate held left right t 1 (Stereo.empty.push x y) := by
  constructor <;> simp [Stereo.empty, Stereo.push, hx, hy]

/-- Every frame up to the last one is heard. -/
theorem hears_sample {n k : Nat} {out : Stereo} (h : Hears rate held left right 0 n out)
    (hk : k < n) :
    ∃ y z, out.left[k]? = some y ∧ out.right[k]? = some z ∧
      left.stream rate held k = some y ∧ right.stream rate held k = some z := by
  have hsample (xs : Array Float32) (e : Expr)
      (hxs : xs.toList.map some = (List.range' 0 n).map (e.stream rate held)) :
      ∃ y, xs[k]? = some y ∧ e.stream rate held k = some y := by
    have hat : xs[k]?.map some = some (e.stream rate held k) := by
      have hmap := congrArg (·[k]?) hxs
      simpa [List.getElem?_range', hk] using hmap
    obtain ⟨y, hy, hstream⟩ := Option.map_eq_some_iff.1 hat
    exact ⟨y, hy, hstream.symm⟩
  obtain ⟨y, hy, hyAt⟩ := hsample out.left left h.left
  obtain ⟨z, hz, hzAt⟩ := hsample out.right right h.right
  exact ⟨y, z, hy, hz, hyAt, hzAt⟩

theorem hears_unique {t n : Nat} {left' right' : Expr} {a b : Stereo}
    (ha : Hears rate held left right t n a) (hb : Hears rate held left' right' t n b)
    (hl : ∀ t, left'.stream rate held t = left.stream rate held t)
    (hr : ∀ t, right'.stream rate held t = right.stream rate held t) : b = a := by
  have hsome {xs ys : Array Float32} (h : xs.toList.map some = ys.toList.map some) : xs = ys :=
    Array.toList_inj.1 (List.map_injective_iff.2 (Option.some_injective _) h)
  obtain ⟨al, ar⟩ := a
  obtain ⟨bl, br⟩ := b
  rw [Stereo.mk.injEq]
  constructor
  · exact hsome (by rw [hb.left, ha.left, funext hl])
  · exact hsome (by rw [hb.right, ha.right, funext hr])

theorem push_append (s u : Stereo) (x y : Float32) :
    (s.push x y).append u = s.append ((Stereo.empty.push x y).append u) := by
  simp [Stereo.append, Stereo.push, Stereo.empty]

theorem append_empty (s : Stereo) : s.append .empty = s := by
  simp [Stereo.append, Stereo.empty]

theorem empty_append (s : Stereo) : Stereo.empty.append s = s := by
  simp [Stereo.append, Stereo.empty]

theorem frames_spec (hs : Coherent (under [left, right])) (blockSize n : Nat) {t : Nat}
    (hc : ∀ i < n, held (t + i) = current) (run : Renderer.Run)
    (h : Playing rate held current t left right run.program) :
    match Renderer.Run.frames blockSize n run with
    | .ok run' => Playing rate held current (t + n) left right run'.program ∧
        (∀ e ∈ under [left, right], ∀ i < n, (e.stream rate held (t + i)).isSome) ∧
        ∃ out, Hears rate held left right t n out ∧ run'.out = run.out.append out
    | .error _ => ∃ e ∈ under [left, right], ∃ i < n, e.stream rate held (t + i) = none := by
  induction n generalizing t run with
  | zero => exact ⟨h, by simp, .empty, hears_empty t, (append_empty _).symm⟩
  | succ n ih =>
    have hframe := frame_spec hs (hc 0 (by omega)) blockSize run h
    rw [Renderer.Run.frames]
    cases hf : run.frame blockSize with
    | error e =>
      rw [hf] at hframe
      obtain ⟨e, he, hend⟩ := hframe
      exact ⟨e, he, 0, by omega, hend⟩
    | ok run' =>
      rw [hf] at hframe
      obtain ⟨hplay, hgo, x, y, hx, hy, hout⟩ := hframe
      have hrest := ih (t := t + 1) (fun i hi => by rw [← hc (i + 1) (by omega)]; congr 1; omega)
        run' hplay
      simp only
      cases hfs : Renderer.Run.frames blockSize n run' with
      | error e =>
        rw [hfs] at hrest
        obtain ⟨e, he, i, hi, hend⟩ := hrest
        exact ⟨e, he, i + 1, by omega, by rw [← hend]; congr 1; omega⟩
      | ok run'' =>
        rw [hfs] at hrest
        obtain ⟨hplay', hgo', out, hears, hout'⟩ := hrest
        refine ⟨by rwa [show t + (n + 1) = t + 1 + n by omega], fun e he i hi => ?_,
          (Stereo.empty.push x y).append out, ?_, by rw [hout', hout, push_append]⟩
        · cases i with
          | zero => exact hgo e he
          | succ i =>
            rw [show t + (i + 1) = t + 1 + i by omega]
            exact hgo' e he i (by omega)
        · rw [show n + 1 = 1 + n by omega]
          exact hears_append (hears_one hx hy) hears

end Patchbay
