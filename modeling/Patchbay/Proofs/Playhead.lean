import Mathlib
import Patchbay.NodeType.Control
import Patchbay.Proofs.Relational
import Patchbay.Proofs.StepCount
import Patchbay.Proofs.Tap

/-!
# The playhead of a sequencer

A sequencer node walks through its steps and, in a second sequence over the same trigger and reset,
through the places of the steps on a line. The two never part: where either stands is told by the
edges of the trigger and the reset alone, which do not know what the steps are. The places are
metered beside the sequence and added to it with a gain of zero.
-/

set_option autoImplicit false

namespace Patchbay

open Patchbay.Expr
open StepSequencer (run pulses selected stepValue)

variable {rate : Float32} {held : Settings} {t : Nat} {a b : Nat → Float32}

namespace Kernel

/-- A kernel stands where its steps so far lead. -/
theorem before_eq {args : List Samples} {k : Nat → Kernel}
    (h : ∀ u < t, ∃ s, (k u).stepAt rate args u = some s ∧ s.kernel = k (u + 1)) :
    (k 0).before rate args t = some (k t) := by
  induction t with
  | zero => rfl
  | succ t ih =>
    obtain ⟨s, hs, hkernel⟩ := h t (Nat.lt_succ_self t)
    rw [before, ih fun u hu => h u (Nat.lt_succ_of_lt hu), Option.bind_some, hs, ← hkernel]
    rfl

/-- A kernel of two arguments is stepped on their samples. -/
theorem stepAt_two {k : Kernel} {xs ys : Samples} {x y : Float32} {s : Step} (hx : xs t = some x)
    (hy : ys t = some y) (hs : k.tick (fun i => [x, y].getD i 0.0) rate = .ok s) :
    k.stepAt rate [xs, ys] t = some s := by
  rw [stepAt]
  simp only [List.mapM_cons, List.mapM_nil, hx, hy, Option.bind_eq_bind, Option.bind_some,
    Option.pure_def, hs]
  rfl

theorem before_steps {s : StepSequencer} {xs ys : Samples} (hx : ∀ u < t, xs u = some (a u))
    (hy : ∀ u < t, ys u = some (b u)) :
    (steps s).before rate [xs, ys] t = some (steps (s.run a b t)) :=
  before_eq (k := fun u => steps (s.run a b u)) fun u hu =>
    ⟨_, stepAt_two (hx u hu) (hy u hu) rfl, rfl⟩

theorem samples_steps {s : StepSequencer} {xs ys : Samples} (hx : ∀ u ≤ t, xs u = some (a u))
    (hy : ∀ u ≤ t, ys u = some (b u)) :
    (steps s).samples rate [xs, ys] t = some ((s.run a b t).tick (a t) (b t)).1 := by
  rw [samples, before_steps (fun u hu => hx u hu.le) fun u hu => hy u hu.le, Option.bind_some,
    stepAt_two (hx t le_rfl) (hy t le_rfl) rfl]
  rfl

theorem samples_binary {f : BinaryOp} {xs ys : Samples} (hx : ∀ u ≤ t, xs u = some (a u))
    (hy : ∀ u ≤ t, ys u = some (b u)) :
    (binary f).samples rate [xs, ys] t = some (f.apply (a t) (b t)) := by
  have hbefore : (binary f).before rate [xs, ys] t = some (binary f) :=
    before_eq (k := fun _ => binary f) fun u hu =>
      ⟨_, stepAt_two (hx u hu.le) (hy u hu.le) rfl, rfl⟩
  rw [samples, hbefore, Option.bind_some, stepAt_two (hx t le_rfl) (hy t le_rfl) rfl]
  rfl

end Kernel

/-- The sequence of an expression stands at a position after a frame. -/
def StandsAt (rate : Float32) (held : Settings) (e : Expr) (t : Nat) (p : Option Nat) : Prop :=
  ∃ k s, Kernel.setup e.op e.key rate = .ok k ∧
    k.before rate ((streams rate held e.children).take e.op.arity) (t + 1) = some (.steps s) ∧
    s.position = p

section

variable {x y : Expr} {l : Label} {values : List Float32}

theorem standsAt_steps (hx : ∀ u ≤ t, x.stream rate held u = some (a u))
    (hy : ∀ u ≤ t, y.stream rate held u = some (b u)) :
    StandsAt rate held (.node l (.steps values true true) none [x, y]) t
      (selected values.length true (pulses a b (t + 1))) := by
  refine ⟨_, _, rfl, Kernel.before_steps (fun u hu => hx u (by omega)) fun u hu => hy u (by omega), ?_⟩
  exact congrArg StepSequencer.position (StepSequencer.run_reset (.new values true true))

theorem stream_steps (hx : ∀ u ≤ t, x.stream rate held u = some (a u))
    (hy : ∀ u ≤ t, y.stream rate held u = some (b u)) :
    (Expr.node l (.steps values true true) none [x, y]).stream rate held t =
      some (stepValue values (selected values.length true (pulses a b (t + 1)))) := by
  rw [stream_kernel (by rintro v ⟨⟩) rfl]
  refine (Kernel.samples_steps hx hy).trans ?_
  rw [show StepSequencer.new values true true = (StepSequencer.new values true true).reset from rfl,
    StepSequencer.run_reset, StepSequencer.tick_told]
  rfl

theorem stream_binary_of {f : BinaryOp} (hx : ∀ u ≤ t, x.stream rate held u = some (a u))
    (hy : ∀ u ≤ t, y.stream rate held u = some (b u)) :
    (Expr.node l (.binary f) none [x, y]).stream rate held t = some (f.apply (a t) (b t)) := by
  rw [stream_kernel (by rintro v ⟨⟩) rfl]
  exact Kernel.samples_binary hx hy

end

/-- An inlet as an expression: what is connected, or else a constant under a key. -/
def Inlaid (key : String) : Signal → Expr → Prop
  | .literal v, e => ∃ l, e = .node l (.const v) (some key) []
  | .expr x, e => e = x

theorem Inlaid.stream {key : String} {v : Float32} {e : Expr} (h : Inlaid key (.literal v) e)
    (u : Nat) : e.stream rate quiet u = some v := by
  obtain ⟨l, rfl⟩ := h
  rfl

/-- The expressions of a sequencer node. -/
structure Playhead where
  trigger : Expr
  reset : Expr
  value : Expr
  position : Expr
  metered : Expr
  outlet : Expr

/-- How the expressions of a sequencer node hang together, labels aside. -/
structure Playhead.Of (h : Playhead) (i : Inputs) (id : String) : Prop where
  trigger : ∃ s, i.signal "trigger" = .ok s ∧ Inlaid (id ++ ":" ++ "trigger") s h.trigger
  reset : ∃ s, i.signal "reset" = .ok s ∧ Inlaid (id ++ ":" ++ "reset") s h.reset
  value : ∃ l, h.value =
    .node l (.steps (NodeType.stepValues i) true true) none [h.trigger, h.reset]
  position : ∃ l, h.position =
    .node l (.steps (NodeType.stepPositions (NodeType.stepValues i).length) true true) none
      [h.trigger, h.reset]
  metered : ∃ l, h.metered = .node l (.tap (.meter (id ++ ":pos"))) none [h.position]
  outlet : ∃ l l' l'', h.outlet = .node l (.binary .add) none [h.value,
    .node l' (.binary .mul) none [.node l'' (.const 0.0) (some (id ++ ":pos:zero")) [], h.metered]]

namespace NodeType

theorem inlaid_keyed {i : Inputs} {name : String} {s : Signal} (h : i.signal name = .ok s)
    (id : String) : NodeBuild.Yields (i.keyed name id) fun e =>
      ∃ s, i.signal name = .ok s ∧ Inlaid (id ++ ":" ++ name) s e := by
  have hget : NodeBuild.Yields (i.get name) (· = s) := fun _ => ⟨s, h, rfl⟩
  refine .bind hget fun s' hs => ?_
  rw [hs]
  refine .lift fun l => ⟨s, h, ?_⟩
  cases s with
  | literal v => exact ⟨l, rfl⟩
  | expr x => rfl

theorem sequencer_yields {i : Inputs} {trigger reset : Signal} (ht : i.signal "trigger" = .ok trigger)
    (hr : i.signal "reset" = .ok reset) (id : String) :
    NodeBuild.Yields (sequencer.compile i id) fun o =>
      ∃ h : Playhead, h.Of i id ∧ o.find? "signal" = some (.expr h.outlet) := by
  refine .bind (inlaid_keyed ht id) fun x hx => ?_
  refine .bind (inlaid_keyed hr id) fun y hy => ?_
  have hsteps (values : List Float32) :
      Build.Yields (Build.steps values true true (.expr x) (.expr y)) fun e =>
        ∃ l, e = .node l (.steps values true true) none [x, y] := fun l => ⟨l, rfl⟩
  refine .bind (.lift (hsteps _)) fun position hposition => ?_
  have hzero : Build.Yields (Build.keyedConst (id ++ ":pos:zero") 0.0) fun e =>
      ∃ l, e = .node l (.const 0.0) (some (id ++ ":pos:zero")) [] := fun l => ⟨l, rfl⟩
  refine .bind (.lift hzero) fun zero hzero => ?_
  have hmeter : Build.Yields (Build.meter (id ++ ":pos") (.expr position)) fun e =>
      ∃ l, e = .node l (.tap (.meter (id ++ ":pos"))) none [position] := fun l => ⟨l, rfl⟩
  refine .bind (.lift hmeter) fun metered hmetered => ?_
  have hbinary (f : BinaryOp) (a b : Expr) : Build.Yields (Build.binary f (.expr a) (.expr b))
      fun e => ∃ l, e = .node l (.binary f) none [a, b] := fun l => ⟨l, rfl⟩
  refine .bind (.lift (hbinary .mul zero metered)) fun probe hprobe => ?_
  refine .bind (.lift (hsteps _)) fun value hvalue => ?_
  refine .bind (.lift (hbinary .add value probe)) fun outlet houtlet => ?_
  refine .pure ⟨⟨x, y, value, position, metered, outlet⟩, ?_, rfl⟩
  obtain ⟨l'', rfl⟩ := hzero
  obtain ⟨l', rfl⟩ := hprobe
  obtain ⟨l, rfl⟩ := houtlet
  exact ⟨hx, hy, hvalue, hposition, hmetered, l, l', l'', rfl⟩

theorem length_stepPositions (count : Nat) : (stepPositions count).length = count := by
  simp [stepPositions]

/-- A place on the line by the position it stands for. -/
theorem stepValue_positions {count k : Nat} :
    stepValue (stepPositions count) (selected count true k) =
      (selected count true k).elim 0.0 fun i => Single.ofNat i / Single.ofNat (max (count - 1) 1) := by
  cases hp : selected count true k with
  | none => rfl
  | some i =>
    have hlt := StepSequencer.selected_lt hp
    simp [stepValue, stepPositions, hlt]

end NodeType

namespace Playhead.Of

open NodeType (stepValues stepPositions)

variable {h : Playhead} {i : Inputs} {id : String} (hof : h.Of i id)

include hof

/-- What is added to the sequence is its playhead with the gain of a constant. -/
theorem outlet_stream {v q : Nat → Float32} (hv : ∀ u ≤ t, h.value.stream rate held u = some (v u))
    (hq : ∀ u ≤ t, h.metered.stream rate held u = some (q u)) :
    h.outlet.stream rate held t =
      some (v t + mulAnnihilating ((held t (id ++ ":pos:zero")).getD 0.0) (q t)) := by
  obtain ⟨l, l', l'', houtlet⟩ := hof.outlet
  have hzero : ∀ u ≤ t, (Expr.node l'' (.const 0.0) (some (id ++ ":pos:zero")) []).stream rate held u =
      some ((held u (id ++ ":pos:zero")).getD 0.0) := fun _ _ => rfl
  have hprobe (u : Nat) (hu : u ≤ t) := stream_binary_of (l := l') (f := .mul)
    (fun w hw => hzero w (hw.trans hu)) fun w hw => hq w (hw.trans hu)
  rw [houtlet, stream_binary_of hv hprobe]
  rfl

variable (hx : ∀ u ≤ t, h.trigger.stream rate held u = some (a u))
  (hy : ∀ u ≤ t, h.reset.stream rate held u = some (b u))

include hx hy

/-- The sequence and its playhead stand at one position. -/
theorem stands :
    StandsAt rate held h.value t (selected (stepValues i).length true (pulses a b (t + 1))) ∧
    StandsAt rate held h.position t (selected (stepValues i).length true (pulses a b (t + 1))) := by
  obtain ⟨l, hvalue⟩ := hof.value
  obtain ⟨l', hposition⟩ := hof.position
  have hstands : StandsAt rate held h.position t (selected
      (stepPositions (stepValues i).length).length true (pulses a b (t + 1))) := by
    rw [hposition]
    exact standsAt_steps hx hy
  rw [NodeType.length_stepPositions] at hstands
  rw [hvalue]
  exact ⟨standsAt_steps hx hy, hstands⟩

theorem value_stream : h.value.stream rate held t =
    some ((selected (stepValues i).length true (pulses a b (t + 1))).elim 0.0 fun n =>
      (stepValues i).getD n 0.0) := by
  obtain ⟨l, hvalue⟩ := hof.value
  rw [hvalue, ← StepSequencer.stepValue_eq]
  exact stream_steps hx hy

theorem metered_stream : h.metered.stream rate held t =
    some ((selected (stepValues i).length true (pulses a b (t + 1))).elim 0.0 fun n =>
      Single.ofNat n / Single.ofNat (max ((stepValues i).length - 1) 1)) := by
  obtain ⟨l, hmetered⟩ := hof.metered
  obtain ⟨l', hposition⟩ := hof.position
  have hpassed : h.metered.stream rate held = h.position.stream rate held := by
    rw [hmetered]
    exact stream_tap (t := .meter (id ++ ":pos")) trivial none [h.position]
  have hstream : h.position.stream rate held t = some (stepValue
      (stepPositions (stepValues i).length)
      (selected (stepPositions (stepValues i).length).length true (pulses a b (t + 1)))) := by
    rw [hposition]
    exact stream_steps hx hy
  rw [hpassed, hstream, NodeType.length_stepPositions, NodeType.stepValue_positions]

end Playhead.Of

namespace NodeType

/-- A sequencer node and its playhead stand at one position, the one that the edges of the trigger
and the reset tell. The playhead is metered as the place of the position on a line from 0 to 1, and
what is played is the step at the position, as long as the gain of the playhead is left at zero. -/
theorem sequencer_lockstep {i : Inputs} {trigger reset : Signal}
    (ht : i.signal "trigger" = .ok trigger) (hr : i.signal "reset" = .ok reset) (id : String) :
    NodeBuild.Yields (sequencer.compile i id) fun o =>
      ∃ h : Playhead, h.Of i id ∧ o.find? "signal" = some (.expr h.outlet) ∧
        ∀ rate held t a b, (∀ u ≤ t, h.trigger.stream rate held u = some (a u)) →
          (∀ u ≤ t, h.reset.stream rate held u = some (b u)) →
          ∃ p v q gain, p = selected (stepValues i).length true (pulses a b (t + 1)) ∧
            StandsAt rate held h.value t p ∧ StandsAt rate held h.position t p ∧
            q = (p.elim 0.0 fun n =>
              Single.ofNat n / Single.ofNat (max ((stepValues i).length - 1) 1)) ∧
            v = (p.elim 0.0 fun n => (stepValues i).getD n 0.0) ∧
            gain = (held t (id ++ ":pos:zero")).getD 0.0 ∧
            h.metered.stream rate held t = some q ∧ h.value.stream rate held t = some v ∧
            h.outlet.stream rate held t = some (v + mulAnnihilating gain q) ∧
            ((gain == 0.0) = true → Single.Same (v + mulAnnihilating gain q) v) := by
  intro l
  obtain ⟨o, ho, h, hof, houtlet⟩ := sequencer_yields ht hr id l
  refine ⟨o, ho, h, hof, houtlet, fun rate held t a b hx hy => ?_⟩
  have hpast {f : Nat → Option Float32} {g : Nat → Float32} (hf : ∀ u ≤ t, f u = some (g u)) {u : Nat}
      (hu : u ≤ t) : ∀ w ≤ u, f w = some (g w) := fun w hw => hf w (hw.trans hu)
  have hvalue (u : Nat) (hu : u ≤ t) := hof.value_stream (hpast hx hu) (hpast hy hu)
  have hmetered (u : Nat) (hu : u ≤ t) := hof.metered_stream (hpast hx hu) (hpast hy hu)
  have hplayed := hof.outlet_stream hvalue hmetered
  obtain ⟨hstands, hstands'⟩ := hof.stands hx hy
  refine ⟨_, _, _, _, rfl, hstands, hstands', rfl, rfl, rfl, hmetered t le_rfl, hvalue t le_rfl,
    hplayed, fun hgain => ?_⟩
  rw [mulAnnihilating, hgain, Bool.true_or, if_pos rfl]
  exact Single.same_add_zero _

/-- A sequencer of two steps whose trigger is on from the first frame. -/
def heldInputs : Inputs :=
  ⟨.ofList [("trigger", .literal 1.0), ("reset", .literal 0.0)],
    .ofList [("steps", .list [5.0, 6.0])]⟩

/-- It stays on its first step, and its playhead at the start of the line. -/
theorem sequencer_lockstep_held : ∃ o, ∃ h : Playhead,
    ((sequencer.compile heldInputs "s").run ⟨.free, 0⟩).1 = .ok o ∧
      o.find? "signal" = some (.expr h.outlet) ∧
      ∃ z, h.outlet.stream 48000.0 quiet 3 = some z ∧ Single.Same z 5.0 ∧
        h.metered.stream 48000.0 quiet 3 = some 0.0 := by
  obtain ⟨o, ho, h, hof, houtlet, hplays⟩ :=
    @sequencer_lockstep heldInputs (.literal 1.0) (.literal 0.0) rfl rfl "s" ⟨.free, 0⟩
  obtain ⟨s, hs, hx⟩ := hof.trigger
  obtain ⟨s', hs', hy⟩ := hof.reset
  cases hs
  cases hs'
  obtain ⟨p, v, q, gain, hp, -, -, hq, hv, hgain, hmetered, -, hplayed, hsame⟩ :=
    hplays 48000.0 quiet 3 (fun _ => 1.0) (fun _ => 0.0) (fun u _ => hx.stream u)
      fun u _ => hy.stream u
  have hfirst : p = some 0 := hp.trans (by decide)
  subst hfirst
  refine ⟨o, h, ho, houtlet, _, hplayed, ?_, ?_⟩
  · have hstep : v = 5.0 := hv.trans (by decide)
    rw [← hstep]
    exact hsame (by rw [hgain]; decide)
  · rw [hmetered, hq]
    decide

end NodeType

end Patchbay
