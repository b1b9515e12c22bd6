import Mathlib
import Patchbay.Proofs.Attained

/-!
# Envelopes follow their gates

The kernel of an envelope remembers whether the gate was high, and the envelope knows its stage; two
pieces of state that different functions change. They agree at any time: the note is held if the
gate is high. Times, sustain levels and gates may be any samples, and what the curves amount to does
not matter.
-/

set_option autoImplicit false

namespace Patchbay

open Patchbay.Expr

variable {rate : Float32} {left right : Expr}

namespace EnvelopeStage

/-- The stages of a note that is held. -/
def held : EnvelopeStage → Bool
  | idle => false
  | attack => true
  | decay => true
  | sustain => true
  | release => false

end EnvelopeStage

namespace Envelope

/-- An envelope that is where its gate has put it. -/
structure Follows (e : Envelope) (gate : Bool) : Prop where
  held : e.stage.held = gate
  silent : e.stage = .idle → e.level = 0.0
  sustained : e.stage = .sustain → e.level = e.sustain

theorem advance_follows (e : Envelope) : e.advance.Follows e.stage.held := by
  obtain ⟨stage, level, rate, attack, decay, release, sustain⟩ := e
  cases stage with
  | idle => exact ⟨rfl, fun _ => rfl, fun h => by cases h⟩
  | attack =>
    simp only [advance]
    split
    · exact ⟨rfl, fun h => (by cases h), fun h => by cases h⟩
    · exact ⟨rfl, fun h => (by cases h), fun h => by cases h⟩
  | decay =>
    simp only [advance]
    split
    · exact ⟨rfl, fun h => (by cases h), fun _ => rfl⟩
    · exact ⟨rfl, fun h => (by cases h), fun h => by cases h⟩
  | sustain => exact ⟨rfl, fun h => (by cases h), fun _ => rfl⟩
  | release =>
    simp only [advance]
    split
    · exact ⟨rfl, fun _ => rfl, fun h => by cases h⟩
    · exact ⟨rfl, fun h => (by cases h), fun h => by cases h⟩

theorem advance_sustain (e : Envelope) : e.advance.sustain = e.sustain := by
  obtain ⟨stage, level, rate, attack, decay, release, sustain⟩ := e
  cases stage <;> simp only [advance] <;> split <;> rfl

/-- After an edge, or without one, the note is held if the gate is high. -/
theorem gateEdge_held {e : Envelope} {was : Bool} (h : e.stage.held = was) (high : Bool) :
    (Kernel.gateEdge e was high).stage.held = high := by
  cases was <;> cases high
  · exact h
  · rfl
  · -- the gate falls while a note is held, so the envelope is not idle
    rw [Kernel.gateEdge, if_neg (by decide), if_pos (by decide), gateOff]
    split
    · next hidle =>
      rw [hidle] at h
      cases h
    · rfl
  · exact h

theorem gateEdge_sustain (e : Envelope) (was high : Bool) :
    (Kernel.gateEdge e was high).sustain = e.sustain := by
  rw [Kernel.gateEdge]
  split
  · rfl
  · split
    · rw [gateOff]
      split <;> rfl
    · rfl

theorem new_follows (rate : Float32) : (new rate).Follows false :=
  ⟨rfl, fun _ => rfl, fun h => by cases h⟩

theorem reset_follows (e : Envelope) : e.reset.Follows false :=
  ⟨rfl, fun _ => rfl, fun h => by cases h⟩

end Envelope

namespace Kernel

/-- What happens to a kernel: a frame with its samples, or a reset. -/
inductive Turn where
  | frame (arg : Nat → Float32)
  | reset

namespace Turn

/-- The gate is high after it. -/
def gate : Turn → Bool
  | frame arg => decide ((0.0 : Float32) < arg 4)
  | reset => false

/-- The sustain level after it. -/
def sustain (current : Float32) : Turn → Float32
  | frame arg => if (arg 2).isFinite then Single.clamp (arg 2) 0.0 1.0 else current
  | reset => current

end Turn

def turn (rate : Float32) (k : Kernel) : Turn → Except KernelFault Kernel
  | .frame arg => (k.tick arg rate).map Step.kernel
  | .reset => .ok k.reset

def turns (rate : Float32) (k : Kernel) : List Turn → Except KernelFault Kernel
  | [] => .ok k
  | t :: rest => (k.turn rate t).bind fun k => k.turns rate rest

theorem turns_append (k : Kernel) (ts us : List Turn) :
    k.turns rate (ts ++ us) = (k.turns rate ts).bind fun k => k.turns rate us := by
  induction ts generalizing k with
  | nil => rfl
  | cons t ts ih =>
    rw [List.cons_append, turns, turns]
    cases k.turn rate t with
    | error f => rfl
    | ok next => exact ih next

/-- One frame of an envelope. -/
theorem tick_follows (rate : Float32) {e : Envelope} {gate : Bool} (h : e.stage.held = gate)
    (arg : Nat → Float32) :
    ∃ e', (envelope e gate).tick arg rate =
        .ok ⟨e'.level, envelope e' (decide ((0.0 : Float32) < arg 4)), none⟩ ∧
      e'.Follows (decide ((0.0 : Float32) < arg 4)) ∧
      e'.sustain = (Turn.frame arg).sustain e.sustain := by
  refine ⟨_, rfl, ?_, ?_⟩
  · have hedge := Envelope.gateEdge_held (e := e.setTimes (arg 0) (arg 1) (arg 2) (arg 3)) h
      (decide ((0.0 : Float32) < arg 4))
    have hfollows := Envelope.advance_follows (gateEdge (e.setTimes (arg 0) (arg 1) (arg 2) (arg 3))
      gate (decide ((0.0 : Float32) < arg 4)))
    rwa [hedge] at hfollows
  · rw [Envelope.advance_sustain, Envelope.gateEdge_sustain]
    rfl

theorem turn_follows (rate : Float32) {e : Envelope} {gate : Bool} (h : e.stage.held = gate)
    (t : Turn) :
    ∃ e', (envelope e gate).turn rate t = .ok (envelope e' t.gate) ∧ e'.Follows t.gate ∧
      e'.sustain = t.sustain e.sustain ∧ (t = .reset → e'.stage = .idle) := by
  cases t with
  | frame arg =>
    obtain ⟨e', htick, hfollows, hsustain⟩ := tick_follows rate h arg
    exact ⟨e', by rw [turn, htick]; rfl, hfollows, hsustain, fun h => by cases h⟩
  | reset => exact ⟨e.reset, rfl, e.reset_follows, rfl, fun _ => rfl⟩

theorem turns_follows (rate : Float32) (ts : List Turn) {e : Envelope} {gate : Bool}
    (h : e.Follows gate) :
    ∃ e' gate', (envelope e gate).turns rate ts = .ok (envelope e' gate') ∧ e'.Follows gate' ∧
      e'.sustain = ts.foldl Turn.sustain e.sustain := by
  induction ts generalizing e gate with
  | nil => exact ⟨e, gate, rfl, h, rfl⟩
  | cons t ts ih =>
    obtain ⟨next, hturn, hnext, hsustain, -⟩ := turn_follows rate h.held t
    obtain ⟨e', gate', hturns, hfollows, hlast⟩ := ih hnext
    refine ⟨e', gate', by rw [turns, hturn]; exact hturns, hfollows, ?_⟩
    rw [hlast, hsustain, List.foldl_cons]

end Kernel

/-- The kernel of an envelope is one that follows the gate it was handed. -/
def Attends (e : Expr) (k : Kernel) (given : Nat → Float32) : Prop :=
  e.op = .envelope → ∃ env : Envelope,
    k = .envelope env (decide ((0.0 : Float32) < given 4)) ∧
      env.Follows (decide ((0.0 : Float32) < given 4))

/-- Nothing has been handed to a node yet. -/
theorem handed_zero (nodes : List Expr) (n : Nat) (e : Expr) (i : Nat) :
    Program.handed nodes (.replicate n 0.0) e i = 0.0 := by
  rw [Program.handed]
  cases e.children[i]? with
  | none => rfl
  | some c =>
    simp only [Option.elim_some, Array.getD_eq_getD_getElem?, Array.getElem?_replicate]
    split <;> rfl

theorem attends_setup {e : Expr} {k : Kernel} (h : Kernel.setup e.op e.key rate = .ok k)
    {given : Nat → Float32} (hgiven : given 4 = 0.0) : Attends e k given := by
  intro op
  rw [op] at h
  cases h
  rw [hgiven]
  exact ⟨_, rfl, Envelope.new_follows rate⟩

theorem attends_reset {e : Expr} {k : Kernel} {before given : Nat → Float32}
    (h : Attends e k before) (hgiven : given 4 = 0.0) : Attends e k.reset given := by
  intro op
  obtain ⟨env, rfl, -⟩ := h op
  rw [hgiven]
  exact ⟨env.reset, rfl, env.reset_follows⟩

theorem attends_tick {e : Expr} {k : Kernel} {before arg given : Nat → Float32} {s : Kernel.Step}
    (h : Attends e k before) (hs : k.tick arg rate = .ok s)
    (hgiven : ∀ i < e.op.arity, given i = arg i) : Attends e s.kernel given := by
  intro op
  obtain ⟨env, rfl, hfollows⟩ := h op
  obtain ⟨next, htick, hnext, -⟩ := Kernel.tick_follows rate hfollows.held arg
  rw [htick] at hs
  cases hs
  rw [hgiven 4 (by rw [op]; decide)]
  exact ⟨next, rfl, hnext⟩

theorem attends_endBlock {e : Expr} {k : Kernel} {given : Nat → Float32} (h : Attends e k given) :
    Attends e k.endBlock.1 given := by
  intro op
  obtain ⟨env, rfl, hfollows⟩ := h op
  exact ⟨env, rfl, hfollows⟩

theorem attends_set {e : Expr} {k : Kernel} {given : Nat → Float32} (h : Attends e k given)
    (key : String) (value : Float32) :
    Attends e (if Program.constKey? e = some key then k.setConst value else k) given := by
  intro op
  obtain ⟨env, rfl, hfollows⟩ := h op
  exact ⟨env, by split <;> rfl, hfollows⟩

/-- Every envelope of a program follows its gate, whatever the program has been through. -/
theorem attained_attends (hs : Coherent (under [left, right])) {p : Program}
    (h : Attained left right p) :
    Laid (fun e k => Attends e k (Program.handed (nodesOf [left, right]) p.values e)) p.sampleRate
      left right p := by
  induction h with
  | @build rate p built =>
    obtain ⟨cells, -, rfl⟩ := (build_eq_ok_iff p).1 built
    exact build_laid built fun e k hk => attends_setup hk (handed_zero _ _ _ _)
  | @setConst p before key value ih =>
    have hlaid : Laid (fun e k => Attends e k (Program.handed (nodesOf [left, right]) p.values e))
        p.sampleRate left right (p.setConst key value) :=
      setConst_laid hs (fun e k hk => attends_set hk key value) ih
    rw [Program.setConst_values]
    rwa [hlaid.sampleRate]
  | @frame p before f stepped ih =>
    exact step_laid_handed (fun e k arg s given hk => attends_tick hk) hs ih stepped
  | endBlock before ih => exact endBlock_laid (fun e k => attends_endBlock) ih
  | @reset p before ih =>
    have hquiet := reset_quiet ih
    rw [hquiet.values]
    exact hquiet.laid.imp fun e k ⟨k', hk', heq⟩ =>
      heq ▸ attends_reset hk' (handed_zero _ _ _ _)

/-- An envelope follows its gate. Its kernel does so for all samples, and after a reset it is idle with
the gate low; and in every program that a renderer can come to, by whatever calls, the cell of each
envelope is one that follows the sample its gate had in the last frame. -/
theorem envelope_follows :
    (∀ rate key, ∃ k, Kernel.setup .envelope key rate = .ok k ∧
      ∀ (turns : List Kernel.Turn) (last : Kernel.Turn), ∃ env : Envelope,
        k.turns rate (turns ++ [last]) = .ok (.envelope env last.gate) ∧ env.Follows last.gate ∧
          env.sustain = (turns ++ [last]).foldl Kernel.Turn.sustain 0.7 ∧
          (last = .reset → env.stage = .idle)) ∧
    ∀ (rate : Float32) (start r : Renderer) (history : List Control) (log : List (Control × Answer))
      (l : Loaded) (e : Expr), Renderer.new rate = .ok start →
      start.perform history = .ok (log, r) → r.loaded = some l →
      Coherent (under [l.leftRoot, l.rightRoot]) → e ∈ under [l.leftRoot, l.rightRoot] →
      e.op = .envelope →
      ∃ (env : Envelope) (gate : Float32) (slot : Nat) (args : List Nat),
        gate = Program.handed (nodesOf [l.leftRoot, l.rightRoot]) l.program.values e 4 ∧
        slot = Program.slotOf (nodesOf [l.leftRoot, l.rightRoot]) e ∧
        l.program.cells[slot]? = some ⟨.envelope env (decide (0.0 < gate)), args⟩ ∧
        env.Follows (decide (0.0 < gate)) ∧
        r.reset.loaded.map (·.program.cells[slot]?) =
          some (some ⟨.envelope { env with stage := .idle, level := 0.0 } false, args⟩) := by
  constructor
  · intro rate key
    refine ⟨_, rfl, fun turns last => ?_⟩
    obtain ⟨env, gate, hturns, hfollows, hsustain⟩ :=
      Kernel.turns_follows rate turns (Envelope.new_follows rate)
    obtain ⟨env', hturn, hfollows', hsustain', hreset⟩ :=
      Kernel.turn_follows rate hfollows.held last
    refine ⟨env', ?_, hfollows', ?_, hreset⟩
    · rw [Kernel.turns_append, hturns]
      show Kernel.turns rate (.envelope env gate) [last] = _
      rw [Kernel.turns, hturn]
      rfl
    · rw [hsustain', hsustain, List.foldl_append]
      rfl
  · intro rate start r history log l e new performed loaded shared he op
    have hattained : Attained l.leftRoot l.rightRoot l.program :=
      Renderer.perform_grown history (Renderer.new_grown new) performed l loaded
    obtain ⟨k, hcell, hk⟩ := (attained_attends shared hattained).cell_slot shared he
    obtain ⟨env, rfl, hfollows⟩ := hk op
    refine ⟨env, _, _, _, rfl, rfl, hcell, hfollows, ?_⟩
    rw [Renderer.reset, loaded, Option.map_some, Option.map_some, Program.reset, List.getElem?_map,
      hcell]
    rfl

theorem envelope_follows_swell : ∃ (start r : Renderer) (log : List (Control × Answer)) (l : Loaded)
    (env : Envelope) (args : List Nat),
    Renderer.new 48000.0 = .ok start ∧
    start.perform [.load dial swell, .setConst "dial" 0.5, .process 1] = .ok (log, r) ∧
    r.loaded = some l ∧ l.program.cells[2]? = some ⟨.envelope env true, args⟩ ∧ env.Follows true ∧
    r.reset.loaded.map (·.program.cells[2]?) =
      some (some ⟨.envelope { env with stage := .idle, level := 0.0 } false, args⟩) := by
  have hnew : Renderer.new 48000.0 = .ok _ := rfl
  obtain ⟨env, gate, slot, args, rfl, rfl, hcell, hfollows, hreset⟩ :=
    envelope_follows.2 48000.0 _ _ [.load dial swell, .setConst "dial" 0.5, .process 1] _ _ swell hnew
      rfl rfl coherent_swell (by simp [under, partsAll, mem_parts]) rfl
  exact ⟨_, _, _, _, env, args, hnew, rfl, rfl, hcell, hfollows, hreset⟩

end Patchbay
