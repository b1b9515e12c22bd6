import Mathlib
import Patchbay.Render.Renderer
import Patchbay.Proofs.Stream

/-!
# Programs compute streams

The cells of a program stand in the order of the distinct nodes, children first. Before every
frame each cell holds the kernel its node has come to, and a frame leaves in every slot what the
node yields. Neither the slots of the frame before nor what other cells left in the scratch is
ever read.
-/

set_option autoImplicit false

namespace Patchbay

open Patchbay.Expr

variable {rate : Float32} {held : Settings} {current : String → Option Float32}

theorem stream_const {e : Expr} {v : Float32} (h : e.op = .const v) :
    e.stream rate held = fun t => some ((e.key.bind (held t)).getD v) := by
  obtain ⟨l, op, key, cs⟩ := e
  subst h
  rfl

theorem stream_kernel {e : Expr} {k : Kernel} (h : ∀ v, e.op ≠ .const v)
    (hk : Kernel.setup e.op e.key rate = .ok k) :
    e.stream rate held = k.samples rate ((streams rate held e.children).take e.op.arity) := by
  obtain ⟨l, op, key, cs⟩ := e
  simp only [Expr.op, Expr.key] at h hk
  cases op with
  | const v => exact absurd rfl (h v)
  | _ => simp only [stream, nodeStream, hk]; rfl

/-- What a node is handed at a place below its arity: a sample of its child, or zero without
one. -/
def argument (rate : Float32) (held : Settings) (t : Nat) (e : Expr) (i : Nat) : Option Float32 :=
  e.children[i]?.elim (some 0.0) fun c => c.stream rate held t

def Fed (rate : Float32) (held : Settings) (t : Nat) (e : Expr) (arg : Nat → Float32) : Prop :=
  ∀ i < e.op.arity, argument rate held t e i = some (arg i)

theorem mapM_streams (t : Nat) (cs : List Expr) (n : Nat) (arg : Nat → Float32)
    (h : ∀ i < n, cs[i]?.elim (some 0.0) (fun c => c.stream rate held t) = some (arg i)) :
    ∃ xs, ((streams rate held cs).take n).mapM (· t) = some xs ∧
      ∀ i < n, xs.getD i 0.0 = arg i := by
  induction cs generalizing n arg with
  | nil =>
    refine ⟨[], by simp [streams], fun i hi => ?_⟩
    simpa using h i hi
  | cons c cs ih =>
    cases n with
    | zero => exact ⟨[], by simp, by simp⟩
    | succ n =>
      have h0 : c.stream rate held t = some (arg 0) := by simpa using h 0 (by omega)
      obtain ⟨xs, hxs, hx⟩ := ih n (fun i => arg (i + 1)) fun i hi => by
        simpa using h (i + 1) (by omega)
      refine ⟨arg 0 :: xs, by simp [streams, List.mapM_cons, h0, hxs], fun i hi => ?_⟩
      cases i with
      | zero => rfl
      | succ i => simpa using hx i (by omega)

theorem stepAt_eq {t : Nat} {e : Expr} {arg : Nat → Float32} (h : Fed rate held t e arg)
    (k : Kernel) (hk : k.reads = e.op.arity) :
    k.stepAt rate ((streams rate held e.children).take e.op.arity) t =
      (k.tick arg rate).toOption := by
  obtain ⟨xs, hxs, hx⟩ := mapM_streams t e.children e.op.arity arg h
  rw [Kernel.stepAt, hxs, ← Kernel.tick_congr k _ _ rate (fun i hi => hx i (hk ▸ hi))]
  rfl

/-- What the cell of a node holds before frame `t`: a constant at its current value, any other
kernel as it has become, up to what a meter has seen of its block. -/
inductive Runs (rate : Float32) (held : Settings) (current : String → Option Float32) (t : Nat)
    (e : Expr) : Kernel → Prop
  | const (v : Float32) (op : e.op = .const v) :
      Runs rate held current t e (.const ((e.key.bind current).getD v))
  | kernel (fresh now k : Kernel) (op : ∀ v, e.op ≠ .const v)
      (setup : Kernel.setup e.op e.key rate = .ok fresh)
      (before : fresh.before rate ((streams rate held e.children).take e.op.arity) t = some now)
      (voice : k.voice = now.voice) : Runs rate held current t e k

/-- One cell in one frame: it gives what its node yields and holds what the node has become, and
it stops where the stream of the node ends. -/
theorem runs_tick {t : Nat} {e : Expr} {k : Kernel} (h : Runs rate held current t e k)
    (hc : held t = current) {arg : Nat → Float32} (ha : Fed rate held t e arg) :
    match k.tick arg rate with
    | .ok s => e.stream rate held t = some s.value ∧ Runs rate held current (t + 1) e s.kernel
    | .error _ => e.stream rate held t = none := by
  cases h with
  | const v op =>
    simp only [Kernel.tick]
    exact ⟨by simp only [stream_const op, hc], .const v op⟩
  | kernel fresh now k op setup before voice =>
    have hr : now.reads = e.op.arity := by
      rw [Kernel.before_reads before, Kernel.setup_reads _ _ _ _ setup]
    have hs := stepAt_eq ha now hr
    have hv := Kernel.tick_voice k now voice arg rate
    rw [stream_kernel op setup, Kernel.samples, before, Option.bind_some, hs]
    cases hk : k.tick arg rate with
    | error f =>
      cases hn : now.tick arg rate with
      | error f' => rfl
      | ok s' => simp [hk, hn, Except.map] at hv
    | ok s =>
      cases hn : now.tick arg rate with
      | error f' => simp [hk, hn, Except.map] at hv
      | ok s' =>
        simp only [hk, hn, Except.map, Except.ok.injEq, Prod.mk.injEq] at hv
        refine ⟨by simp [Except.toOption, hv.1], .kernel fresh s'.kernel s.kernel op setup ?_ hv.2⟩
        rw [Kernel.before, before, Option.bind_some, hs, hn]
        rfl

namespace Program

theorem slotOf_of_split {nodes pre post : List Expr} {e : Expr} (h : nodes = pre ++ e :: post)
    (hl : ∀ f ∈ pre, f.label ≠ e.label) : slotOf nodes e = pre.length + 1 := by
  have hp : pre.findIdx? (·.label = e.label) = none := by
    rw [List.findIdx?_eq_none_iff]
    intro f hf
    exact decide_eq_false (hl f hf)
  simp [slotOf, h, List.findIdx?_append, hp, List.findIdx?_cons]

theorem slotOf_le {nodes pre post : List Expr} {e : Expr} (h : nodes = pre ++ post)
    (he : e ∈ pre) : slotOf nodes e ≤ pre.length := by
  cases hp : pre.findIdx? (·.label = e.label) with
  | none =>
    rw [List.findIdx?_eq_none_iff] at hp
    simpa using hp e he
  | some i =>
    have hi := (List.findIdx?_eq_some_iff_getElem.1 hp).1
    simpa [slotOf, h, List.findIdx?_append, hp] using hi

theorem fetch_size (values : Array Float32) (i : Nat) (slots : List Nat) (scratch : Array Float32) :
    (fetch values i slots scratch).size = scratch.size := by
  induction slots generalizing i scratch with
  | nil => rfl
  | cons slot slots ih => rw [fetch, ih, Array.size_setIfInBounds]

theorem fetch_before (values : Array Float32) (i j : Nat) (slots : List Nat)
    (scratch : Array Float32) (h : j < i) :
    (fetch values i slots scratch).getD j 0.0 = scratch.getD j 0.0 := by
  induction slots generalizing i scratch with
  | nil => rfl
  | cons slot slots ih =>
    rw [fetch, ih (i + 1) _ (by omega)]
    simp [Array.getD_eq_getD_getElem?, show i ≠ j by omega]

theorem fetch_get (values : Array Float32) (i j : Nat) (slots : List Nat) (scratch : Array Float32)
    (hj : j < slots.length) (hs : i + slots.length ≤ scratch.size) :
    (fetch values i slots scratch).getD (i + j) 0.0 = values.getD (slots.getD j 0) 0.0 := by
  induction slots generalizing i j scratch with
  | nil => simp at hj
  | cons slot slots ih =>
    simp only [List.length_cons] at hj hs
    rw [fetch]
    cases j with
    | zero =>
      rw [fetch_before _ _ _ _ _ (by omega)]
      simp [Array.getD_eq_getD_getElem?, show i < scratch.size by omega]
    | succ j =>
      have := ih (i + 1) j (scratch.setIfInBounds i (values.getD slot 0.0)) (by omega)
        (by rw [Array.size_setIfInBounds]; omega)
      rw [show i + (j + 1) = i + 1 + j by omega, this]
      rfl

theorem argSlots_length (nodes : List Expr) (e : Expr) :
    (argSlots nodes e).length = e.op.arity := by
  simp [argSlots]

theorem arity_le (op : Op) : op.arity ≤ scratch.size := by
  cases op <;> simp [Op.arity, scratch]

/-- What the slots hold that a node is handed. -/
def handed (nodes : List Expr) (values : Array Float32) (e : Expr) (i : Nat) : Float32 :=
  e.children[i]?.elim 0.0 fun c => values.getD (slotOf nodes c) 0.0

theorem fetch_handed {nodes : List Expr} {values scratch : Array Float32} {e : Expr}
    (hzero : values.getD 0 0.0 = 0.0) (hs : scratch.size = Program.scratch.size) {i : Nat}
    (hi : i < e.op.arity) :
    (fetch values 0 (argSlots nodes e) scratch).getD i 0.0 = handed nodes values e i := by
  have hlen := argSlots_length nodes e
  have hget := fetch_get values 0 i (argSlots nodes e) scratch (by omega)
    (by have := arity_le e.op; omega)
  rw [Nat.zero_add] at hget
  have hslot : (argSlots nodes e).getD i 0 = e.children[i]?.elim 0 (slotOf nodes) := by
    simp only [argSlots, List.getD_eq_getElem?_getD, List.getElem?_map, List.getElem?_range hi,
      Option.map_some, Option.getD_some]
    cases e.children[i]? <;> rfl
  rw [hget, hslot, handed]
  cases e.children[i]? with
  | none => exact hzero
  | some c => rfl

/-- Slot 0 is zero, and the slots of some nodes hold what these yield at frame `t`. -/
structure Holds (rate : Float32) (held : Settings) (t : Nat) (nodes done : List Expr)
    (values : Array Float32) : Prop where
  zero : values.getD 0 0.0 = 0.0
  slots : ∀ e ∈ done, e.stream rate held t = some (values.getD (slotOf nodes e) 0.0)

theorem holds_nil {t : Nat} {nodes : List Expr} {values : Array Float32} (h : 0 < values.size) :
    Holds rate held t nodes [] (values.setIfInBounds 0 0.0) := by
  refine ⟨?_, by simp⟩
  simp [Array.getD_eq_getD_getElem?, h]

theorem fed_of_holds {t : Nat} {nodes done : List Expr} {values scratch : Array Float32}
    (hv : Holds rate held t nodes done values) (hs : scratch.size = Program.scratch.size)
    (e : Expr) (hc : ∀ c ∈ e.children, c ∈ done) :
    Fed rate held t e fun i => (fetch values 0 (argSlots nodes e) scratch).getD i 0.0 := by
  intro i hi
  simp only [fetch_handed hv.zero hs hi, argument, handed]
  cases hci : e.children[i]? with
  | none => rfl
  | some c => exact hv.slots c (hc c (List.mem_of_getElem? hci))

theorem holds_snoc {t : Nat} {nodes pre post : List Expr} {e : Expr} {values : Array Float32}
    {y : Float32} (hn : nodes = pre ++ e :: post) (hl : ∀ f ∈ pre, f.label ≠ e.label)
    (hv : Holds rate held t nodes pre values) (hs : values.size = nodes.length + 1)
    (hy : e.stream rate held t = some y) :
    Holds rate held t nodes (pre ++ [e]) (values.setIfInBounds (pre.length + 1) y) := by
  have hlen : pre.length + 1 < values.size := by rw [hs, hn]; simp
  refine ⟨?_, fun f hf => ?_⟩
  · simpa [Array.getD_eq_getD_getElem?] using hv.zero
  · rcases List.mem_append.1 hf with hf | hf
    · have hle := slotOf_le hn hf
      rw [hv.slots f hf]
      simp [Array.getD_eq_getD_getElem?, Array.getElem?_setIfInBounds_ne,
        show pre.length + 1 ≠ slotOf nodes f by omega]
    · rw [List.mem_singleton] at hf
      rw [hf, hy, slotOf_of_split hn hl]
      simp [Array.getD_eq_getD_getElem?, hlen]

/-- A cell as its node has come to it before frame `t`, with the slots of its children. -/
structure Tracks (rate : Float32) (held : Settings) (current : String → Option Float32) (t : Nat)
    (nodes : List Expr) (e : Expr) (c : Cell) : Prop where
  args : c.args = argSlots nodes e
  runs : Runs rate held current t e c.kernel

/-- The cells from some place on: they all step and leave every slot with the stream of its node,
or the stream of one of their nodes ends. Whatever else holds of a kernel, and goes on to hold when
it is handed what its node takes in, holds after the frame; so does what can be said then of the
event it raises. -/
theorem step_tracks {P Q : Expr → Kernel → Prop} {S : Expr → Option Raised → Prop} {t : Nat}
    (hc : held t = current)
    (hP : ∀ e k arg s, P e k → Fed rate held t e arg → k.tick arg rate = .ok s →
      Q e s.kernel ∧ S e s.raised)
    {nodes : List Expr} (hlist : Listed nodes) (pre post : List Expr) (cells : List Cell)
    (values scratch : Array Float32) (hn : nodes = pre ++ post)
    (hcells : List.Forall₂
      (fun e c => Tracks rate held current t nodes e c ∧ P e c.kernel) post cells)
    (hv : Holds rate held t nodes pre values) (hs : values.size = nodes.length + 1)
    (hw : scratch.size = Program.scratch.size) :
    match step rate cells (pre.length + 1) values scratch with
    | .ok f => f.values.size = nodes.length + 1 ∧ Holds rate held t nodes nodes f.values ∧
        List.Forall₂
          (fun e c => Tracks rate held current (t + 1) nodes e c ∧ Q e c.kernel) post f.cells ∧
        ∃ raised, List.Forall₂ S post raised ∧ f.raised = raised.flatMap Option.toList
    | .error _ => ∃ e ∈ post, e.stream rate held t = none := by
  -- the slots written so far hold the streams of `pre`, among them the children of the next node
  induction hcells generalizing pre values scratch with
  | nil =>
    rw [List.append_nil] at hn
    subst hn
    exact ⟨hs, hv, .nil, [], .nil, rfl⟩
  | @cons e c post cells hec hrest ih =>
    obtain ⟨kernel, args⟩ := c
    obtain ⟨hch, hl⟩ := hlist pre post e hn
    obtain ⟨⟨hargs, hrun⟩, hp⟩ := hec
    simp only at hargs hrun hp
    subst hargs
    have hfed := fed_of_holds hv hw e hch
    have htick := runs_tick hrun hc hfed
    rw [step]
    cases hk :
        kernel.tick (fun i => (fetch values 0 (argSlots nodes e) scratch).getD i 0.0) rate with
    | error f =>
      rw [hk] at htick
      exact ⟨e, by simp, htick⟩
    | ok s =>
      rw [hk] at htick
      obtain ⟨hy, hrun'⟩ := htick
      have := ih (pre ++ [e]) (values.setIfInBounds (pre.length + 1) s.value)
        (fetch values 0 (argSlots nodes e) scratch) (by simp [hn]) (holds_snoc hn hl hv hs hy)
        (by rw [Array.size_setIfInBounds, hs]) (by rw [fetch_size, hw])
      rw [List.length_append, List.length_singleton] at this
      cases hrec : step rate cells (pre.length + 1 + 1)
          (values.setIfInBounds (pre.length + 1) s.value)
          (fetch values 0 (argSlots nodes e) scratch) with
      | error f =>
        simp only [hrec] at this ⊢
        obtain ⟨g, hg, hend⟩ := this
        exact ⟨g, by simp [hg], hend⟩
      | ok f =>
        simp only [hrec] at this ⊢
        obtain ⟨hsize, hhold, hcells, raised, hraised, heq⟩ := this
        obtain ⟨hq, hsaid⟩ := hP e kernel _ s hp hfed hk
        refine ⟨hsize, hhold, .cons ⟨⟨rfl, hrun'⟩, hq⟩ hcells, s.raised :: raised,
          .cons hsaid hraised, ?_⟩
        rw [heq, List.flatMap_cons]

theorem step_spec {t : Nat} (hc : held t = current) {nodes : List Expr}
    (hlist : Listed nodes) (pre post : List Expr) (cells : List Cell)
    (values scratch : Array Float32) (hn : nodes = pre ++ post)
    (hcells : List.Forall₂ (Tracks rate held current t nodes) post cells)
    (hv : Holds rate held t nodes pre values) (hs : values.size = nodes.length + 1)
    (hw : scratch.size = Program.scratch.size) :
    match step rate cells (pre.length + 1) values scratch with
    | .ok f => f.values.size = nodes.length + 1 ∧ Holds rate held t nodes nodes f.values ∧
        List.Forall₂ (Tracks rate held current (t + 1) nodes) post f.cells
    | .error _ => ∃ e ∈ post, e.stream rate held t = none := by
  have htracks := step_tracks (P := fun _ _ => True) (Q := fun _ _ => True)
    (S := fun _ _ => True) hc (fun _ _ _ _ h _ _ => ⟨h, h⟩) hlist pre post cells values scratch hn
    (hcells.imp fun _ _ h => ⟨h, trivial⟩) hv hs hw
  cases hf : step rate cells (pre.length + 1) values scratch with
  | error f => rwa [hf] at htracks
  | ok f =>
    rw [hf] at htracks
    obtain ⟨hsize, hhold, hcells', -⟩ := htracks
    exact ⟨hsize, hhold, hcells'.imp fun _ _ h => h.1⟩

end Program

end Patchbay
