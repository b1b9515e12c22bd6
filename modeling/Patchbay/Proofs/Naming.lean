import Mathlib
import Patchbay.Proofs.Relational
import Patchbay.Proofs.Turn

/-!
# How keys are named

Every key in a compiled target is an id followed by one of a fixed list of suffixes. The compiler
has one more suffix in store, for a bare number at the source of an edge; as node types give
expressions alone, it is never used.
-/

set_option autoImplicit false

namespace Patchbay

open Patchbay.Expr

/-- What follows the id in a key: inlets, what node types name on their own, and the additions of
the compiler. -/
def keySuffixes : List String :=
  [":frequency", ":gain", ":rate", ":depth", ":value", ":gate", ":trigger", ":reset", ":attack",
    ":decay", ":sustain", ":release", ":cutoff", ":q", ":time", ":feedback", ":mix", ":a", ":b",
    ":balance", ":left", ":right",
    ":silence", ":noise", ":note", ":pos:zero", ":freq", ":mute",
    ":left:silence", ":right:silence", ":zero", ":z"]

def Named (key : String) : Prop := ∃ owner, ∃ suffix ∈ keySuffixes, key = owner ++ suffix

theorem named_of {suffix : String} (h : suffix ∈ keySuffixes) (owner : String) :
    Named (owner ++ suffix) :=
  ⟨owner, suffix, h, rfl⟩

/-- No suffix of a key ends in that of a lifted number. A suffix that is shorter is no end of it
either, as it starts with the only colon there. -/
theorem not_named_lift (edge : String) : ¬Named (edge ++ ":lift") := by
  rintro ⟨owner, suffix, hs, heq⟩
  have hlists := congrArg String.toList heq
  rw [String.toList_append, String.toList_append] at hlists
  have hends : ":lift".toList <:+ suffix.toList ∨ suffix.toList <:+ ":lift".toList :=
    List.suffix_or_suffix_of_suffix (hlists ▸ List.suffix_append _ _) (List.suffix_append _ _)
  have hnone : ∀ s ∈ keySuffixes, ¬(":lift".toList <:+ s.toList ∨ s.toList <:+ ":lift".toList) := by
    decide
  exact hnone suffix hs hends

/-- Expressions with named keys. -/
def named : Set Expr := {e | ∀ f ∈ parts e, ∀ key, f.key = some key → Named key}

theorem node_mem_named {l : Label} {op : Op} {key : Option String} {cs : List Expr}
    (hkey : ∀ k, key = some k → Named k) (hcs : ∀ c ∈ cs, c ∈ named) :
    node l op key cs ∈ named := by
  intro f hf
  rw [parts, List.mem_cons, mem_partsAll] at hf
  rcases hf with rfl | ⟨c, hc, hf⟩
  · exact hkey
  · exact hcs c hc f hf

namespace Build

theorem Yields.node {op : Op} {key : Option String} {cs : List Expr}
    (hkey : ∀ k, key = some k → Named k) (hcs : ∀ c ∈ cs, c ∈ named) :
    Yields (Build.node op key cs) (· ∈ named) :=
  fun _ => node_mem_named hkey hcs

theorem Yields.namedConst {key : String} (h : Named key) (v : Float32) :
    Yields (Build.keyedConst key v) (· ∈ named) :=
  .node (fun _ hk => Option.some.inj hk ▸ h) (by simp)

theorem Yields.liftNamed {key : String} (h : Named key) {s : Signal} (hs : s.In named) :
    Yields (Build.liftKeyed key s) (· ∈ named) := by
  cases s with
  | literal v => exact .namedConst h v
  | expr e => exact .pure hs

theorem Yields.lifts {args : List Signal} (h : ∀ s ∈ args, s.In named) :
    Yields (args.mapM Build.lift) fun es => ∀ e ∈ es, e ∈ named := by
  induction args with
  | nil => exact .pure (by simp)
  | cons s args ih =>
    have hlift : Yields (Build.lift s) (· ∈ named) := by
      cases s with
      | literal v => exact .node (by simp) (by simp)
      | expr e => exact .pure (h (.expr e) (by simp))
    rw [List.mapM_cons]
    refine .bind hlift fun e he => ?_
    refine .bind (ih fun s hs => h s (by simp [hs])) fun es hes => ?_
    exact .pure (List.forall_mem_cons.2 ⟨he, hes⟩)

/-- An operation without a key of its own. -/
theorem Yields.apply {op : Op} {args : List Signal} (h : ∀ s ∈ args, s.In named) :
    Yields (Build.apply op args) (· ∈ named) :=
  .bind (.lifts h) fun _ hes => .node (by simp) hes

end Build

namespace Inputs

variable {inlets : List String} {i : Inputs}

theorem Offers.yields_get (h : i.Offers named inlets) {name : String} (hn : name ∈ inlets) :
    NodeBuild.Yields (i.get name) (Signal.In named) := by
  obtain ⟨s, hf, hs⟩ := h name hn
  intro l
  refine ⟨s, ?_, hs⟩
  show i.signal name = .ok s
  rw [Inputs.signal, hf]

theorem Offers.yields_keyed (h : i.Offers named inlets) {name : String} (hn : name ∈ inlets)
    (hs : ":" ++ name ∈ keySuffixes) (id : String) :
    NodeBuild.Yields (i.keyed name id) (· ∈ named) := by
  have hkey : Named (id ++ ":" ++ name) := by
    rw [String.append_assoc]
    exact named_of hs id
  exact .bind (h.yields_get hn) fun _ hs => .lift (.liftNamed hkey hs)

end Inputs

namespace NodeType

open NodeBuild (Yields)

/-- With inputs whose keys are named, a node type does not fail and names its keys too. -/
def Names (t : NodeType) : Prop :=
  ∀ (inputs : Inputs) (id : String), inputs.Offers named (t.info.inlets.map Inlet.name) →
    Yields (t.compile inputs id) (Outputs.Gives named t.info.outlets)

variable {inlets : List String} {inputs : Inputs}

theorem ofExpr_names {b : NodeBuild Expr} (h : Yields b (· ∈ named)) :
    Yields (do return .ofExpr (← b)) (Outputs.Gives named ["signal"]) :=
  .bind h fun _ he => .pure (Outputs.gives_ofExpr he)

theorem withInput_names (h : inputs.Offers named inlets) (hi : "input" ∈ inlets) (id : String)
    (process : Expr → NodeBuild Expr)
    (hp : ∀ input ∈ named, Yields (process input) (· ∈ named)) :
    Yields (withInput inputs id process) (Outputs.Gives named ["signal"]) := by
  refine .bind (h.yields_get hi) fun s hs => ?_
  cases s with
  | literal v => exact ofExpr_names (.lift (.namedConst (named_of (by decide) id) 0.0))
  | expr input => exact ofExpr_names (hp input hs)

theorem meteredInlet_names (h : inputs.Offers named inlets) {inlet : String} (hi : inlet ∈ inlets)
    (hs : ":" ++ inlet ∈ keySuffixes) (id : String) :
    Yields (meteredInlet inlet inputs id) (Outputs.Gives named ["signal"]) := by
  refine .bind (h.yields_keyed hi hs id) fun value hv => ?_
  exact ofExpr_names (.lift (.apply (by simpa [Signal.In] using hv)))

theorem number_names : Names number := fun _ id h =>
  meteredInlet_names h (by simp [number]) (by decide) id

theorem bang_names : Names bang := fun _ id h =>
  meteredInlet_names h (by simp [bang]) (by decide) id

theorem keyboard_names : Names keyboard := by
  intro inputs id h
  refine .bind (.lift (.namedConst (named_of (by decide) id) _)) fun note hn => ?_
  refine .bind (.lift (.namedConst (named_of (by decide) id) _)) fun gate hg => ?_
  have := (Outputs.gives_empty.insert "note" hn).insert "gate" hg
  exact .pure ⟨this.expr, fun name h => this.some name (by simpa [keyboard, or_comm] using h)⟩

theorem metro_names : Names metro := by
  intro inputs id h
  refine .bind (h.yields_get (by simp [metro])) fun bpm hb => ?_
  have hrate : Build.Yields (pulseRate id bpm) (· ∈ named) := by
    cases bpm with
    | literal bpm => exact .namedConst (named_of (by decide) id) _
    | expr bpm => exact .apply (by simpa [Signal.In] using hb)
  refine .bind (.lift hrate) fun rate hr => ?_
  refine .bind (.lift (.apply (by simpa [Signal.In] using hr))) fun pulses hp => ?_
  exact ofExpr_names (.lift (.apply (by simpa [Signal.In] using hp)))

theorem sequencer_names : Names sequencer := by
  intro inputs id h
  have hzero : Named (id ++ ":pos:zero") := named_of (by decide) id
  refine .bind (h.yields_keyed (by simp [sequencer]) (by decide) id) fun trigger ht => ?_
  refine .bind (h.yields_keyed (by simp [sequencer]) (by decide) id) fun reset hr => ?_
  refine .bind (.lift (.apply (by simp [Signal.In, ht, hr]))) fun position hp => ?_
  refine .bind (.lift (.namedConst hzero 0.0)) fun zero hz => ?_
  refine .bind (.lift (.apply (by simpa [Signal.In] using hp))) fun metered hm => ?_
  refine .bind (.lift (.apply (by simp [Signal.In, hz, hm]))) fun probe hpr => ?_
  refine .bind (.lift (.apply (by simp [Signal.In, ht, hr]))) fun value hv => ?_
  exact ofExpr_names (.lift (.apply (by simp [Signal.In, hv, hpr])))

theorem envelope_names : Names envelope := by
  intro inputs id h
  refine .bind (h.yields_get (by simp [envelope])) fun gate hg => ?_
  have hlevel : Build.Yields (gateLevel id gate) (· ∈ named) := by
    cases gate with
    | literal v => exact .namedConst (named_of (by decide) id) _
    | expr e => exact .pure hg
  refine .bind (.lift hlevel) fun gate hg => ?_
  refine .bind (h.yields_keyed (by simp [envelope]) (by decide) id) fun attack ha => ?_
  refine .bind (h.yields_keyed (by simp [envelope]) (by decide) id) fun decay hd => ?_
  refine .bind (h.yields_keyed (by simp [envelope]) (by decide) id) fun sustain hs => ?_
  refine .bind (h.yields_keyed (by simp [envelope]) (by decide) id) fun release hr => ?_
  refine .bind (.lift (.apply (by simp [Signal.In, ha, hd, hs, hr, hg]))) fun contour hc => ?_
  exact ofExpr_names (.lift (.apply (by simpa [Signal.In] using hc)))

theorem scaledWave_names (h : inputs.Offers named inlets) {rate scale : String}
    (hr : rate ∈ inlets) (hs : scale ∈ inlets) (hr' : ":" ++ rate ∈ keySuffixes)
    (hs' : ":" ++ scale ∈ keySuffixes) (id : String) :
    Yields (scaledWave rate scale inputs id) (Outputs.Gives named ["signal"]) := by
  refine .bind (h.yields_keyed hr hr' id) fun rate hr => ?_
  refine .bind (h.yields_keyed hs hs' id) fun scale hs => ?_
  refine .bind (.lift (.apply (by simpa [Signal.In] using hr))) fun wave hw => ?_
  exact ofExpr_names (.lift (.apply (by simp [Signal.In, hw, hs])))

theorem oscillator_names : Names oscillator := fun _ id h =>
  scaledWave_names h (by simp [oscillator]) (by simp [oscillator]) (by decide) (by decide) id

theorem lfo_names : Names lfo := fun _ id h =>
  scaledWave_names h (by simp [lfo]) (by simp [lfo]) (by decide) (by decide) id

theorem noise_names : Names noise := by
  intro inputs id h
  have hkey : Named (id ++ ":noise") := named_of (by decide) id
  have hwhite : Build.Yields (Build.noise (id ++ ":noise")) (· ∈ named) :=
    .node (fun _ hk => Option.some.inj hk ▸ hkey) (by simp)
  refine .bind (.lift hwhite) fun white hw => ?_
  have hcolour (c : NoiseColor) : Build.Yields (coloured white c) (· ∈ named) := by
    cases c with
    | white => exact .pure hw
    | pink => exact .apply (by simpa [Signal.In] using hw)
  refine .bind (.lift (hcolour _)) fun source hs => ?_
  refine .bind (h.yields_keyed (by simp [noise]) (by decide) id) fun gain hg => ?_
  exact ofExpr_names (.lift (.apply (by simp [Signal.In, hs, hg])))

theorem gain_names : Names gain := by
  intro inputs id h
  refine withInput_names h (by simp [gain]) id _ fun input hi => ?_
  refine .bind (h.yields_keyed (by simp [gain]) (by decide) id) fun gain hg => ?_
  exact .lift (.apply (by simp [Signal.In, hi, hg]))

theorem filter_names : Names filter := by
  intro inputs id h
  refine withInput_names h (by simp [filter]) id _ fun input hi => ?_
  refine .bind (h.yields_keyed (by simp [filter]) (by decide) id) fun cutoff hc => ?_
  refine .bind (h.yields_keyed (by simp [filter]) (by decide) id) fun q hq => ?_
  exact .lift (.apply (by simp [Signal.In, hi, hc, hq]))

theorem crossfade_names {a b balance : Expr} (ha : a ∈ named) (hb : b ∈ named)
    (hc : balance ∈ named) : Build.Yields (crossfade a b balance) (· ∈ named) := by
  refine .bind (.apply (by simpa [Signal.In] using hc)) fun rest hr => ?_
  refine .bind (.apply (by simp [Signal.In, ha, hr])) fun a ha => ?_
  refine .bind (.apply (by simp [Signal.In, hb, hc])) fun b hb => ?_
  exact .apply (by simp [Signal.In, ha, hb])

theorem delay_names : Names delay := by
  intro inputs id h
  refine withInput_names h (by simp [delay]) id _ fun input hi => ?_
  refine .bind (h.yields_keyed (by simp [delay]) (by decide) id) fun time ht => ?_
  refine .bind (h.yields_keyed (by simp [delay]) (by decide) id) fun feedback hf => ?_
  refine .bind (h.yields_keyed (by simp [delay]) (by decide) id) fun mix hm => ?_
  refine .bind (.lift (.apply (by simp [Signal.In, ht, hf, hi]))) fun wet hw => ?_
  exact .lift (crossfade_names hi hw hm)

theorem mixSide_names {name : String} (hn : ":" ++ name ∈ keySuffixes) (id : String) {s : Signal}
    (h : s.In named) : Build.Yields (mixSide name id s) (· ∈ named) := by
  cases s with
  | literal v =>
    rw [mixSide, String.append_assoc]
    exact .namedConst (named_of hn id) 0.0
  | expr e => exact .pure h

theorem mix_names : Names mix := by
  intro inputs id h
  refine .bind (h.yields_get (by simp [mix])) fun a ha => ?_
  refine .bind (h.yields_get (by simp [mix])) fun b hb => ?_
  split
  · exact ofExpr_names (.lift (.namedConst (named_of (by decide) id) 0.0))
  · refine .bind (.lift (mixSide_names (by decide) id ha)) fun a ha => ?_
    refine .bind (.lift (mixSide_names (by decide) id hb)) fun b hb => ?_
    refine .bind (h.yields_keyed (by simp [mix]) (by decide) id) fun balance hc => ?_
    exact ofExpr_names (.lift (crossfade_names ha hb hc))

theorem frequencyOf_names (id : String) {note : Signal} (h : note.In named) :
    Build.Yields (frequencyOf id note) (· ∈ named) := by
  cases note with
  | literal note => exact .namedConst (named_of (by decide) id) _
  | expr note =>
    refine .bind (.apply (by simpa [Signal.In] using h)) fun above ha => ?_
    refine .bind (.apply (by simpa [Signal.In] using ha)) fun octaves ho => ?_
    refine .bind (.apply (by simpa [Signal.In] using ho)) fun ratio hr => ?_
    exact .apply (by simpa [Signal.In] using hr)

theorem noteToFreq_names : Names noteToFreq := by
  intro inputs id h
  refine .bind (h.yields_get (by simp [noteToFreq])) fun note hn => ?_
  refine .bind (.lift (frequencyOf_names id hn)) fun frequency hf => ?_
  exact .pure (Outputs.gives_empty.insert "frequency" hf)

theorem operation_names (h : inputs.Offers named inlets) (ha : "a" ∈ inlets) (hb : "b" ∈ inlets)
    (f : BinaryOp) (fold : Float32 → Float32 → Float32) (id : String) :
    Yields (operation f fold inputs id) (· ∈ named) := by
  refine .bind (h.yields_get ha) fun a ha => ?_
  refine .bind (h.yields_get hb) fun b hb => ?_
  split
  · exact .lift (.namedConst (named_of (by decide) id) _)
  · refine .bind (.lift (.liftNamed (named_of (by decide) id) ha)) fun a ha => ?_
    refine .bind (.lift (.liftNamed (named_of (by decide) id) hb)) fun b hb => ?_
    exact .lift (.apply (by simp [Signal.In, ha, hb]))

theorem math_names : Names math := by
  intro inputs id h
  refine .bind (operation_names h (by simp [math]) (by simp [math]) _ _ id) fun result hr => ?_
  exact ofExpr_names (.lift (.apply (by simpa [Signal.In] using hr)))

theorem compare_names : Names compare := fun _ id h =>
  ofExpr_names (operation_names h (by simp [compare]) (by simp [compare]) _ _ id)

/-- A visualizer is a tap on its input. -/
theorem tapped_names (h : inputs.Offers named ["input"]) (id : String) (t : Tap) :
    Yields (withInput inputs id fun input => Build.tap t (.expr input))
      (Outputs.Gives named ["signal"]) :=
  withInput_names h (by simp) id _ fun _ hi => .lift (.apply (by simpa [Signal.In] using hi))

theorem scope_names : Names scope := fun _ id h => tapped_names h id _

theorem spectrum_names : Names spectrum := fun _ id h => tapped_names h id _

theorem meter_names : Names meter := fun _ id h => tapped_names h id _

theorem probe_names : Names probe := by
  intro inputs id h
  refine withInput_names h (by simp [probe, inputInlet]) id _ fun input hi => ?_
  refine .bind (.lift (.apply (by simpa [Signal.In] using hi))) fun metered hm => ?_
  exact .lift (.apply (by simpa [Signal.In] using hm))

theorem output_names : Names output := by
  intro inputs id h
  refine .bind (h.yields_keyed (by simp [output]) (by decide) id) fun left hl => ?_
  refine .bind (.lift (.apply (by simpa [Signal.In] using hl))) fun left hl => ?_
  refine .bind (h.yields_get (by simp [output])) fun right hr => ?_
  have hright : Build.Yields (rightChannel id left right) (· ∈ named) := by
    cases right with
    | literal v => exact .pure hl
    | expr right => exact .apply (by simpa [Signal.In] using hr)
  refine .bind (.lift hright) fun right hr => ?_
  refine .bind (h.yields_get (by simp [output])) fun muted hm => ?_
  have hgain : Build.Yields (muteGain id muted) (· ∈ named) := by
    cases muted with
    | literal v => exact .namedConst (named_of (by decide) id) _
    | expr e => exact .apply (by simpa [Signal.In] using hm)
  refine .bind (.lift hgain) fun gain hg => ?_
  refine .bind (.lift (.apply (by simp [Signal.In, hl, hg]))) fun left hl => ?_
  refine .bind (.lift (.apply (by simp [Signal.In, hr, hg]))) fun right hr => ?_
  have := (Outputs.gives_empty.insert "left" hl).insert "right" hr
  exact .pure ⟨this.expr, fun name h => this.some name (by simpa [output, or_comm] using h)⟩

end NodeType

theorem builtin_names : ∀ t ∈ Registry.builtin.types, t.Names := by
  simp only [Registry.builtin, NodeType.builtins, List.forall_mem_cons]
  exact ⟨NodeType.oscillator_names, NodeType.lfo_names, NodeType.noise_names,
    NodeType.number_names, NodeType.bang_names, NodeType.keyboard_names, NodeType.metro_names,
    NodeType.sequencer_names, NodeType.envelope_names, NodeType.gain_names,
    NodeType.filter_names, NodeType.delay_names, NodeType.mix_names, NodeType.noteToFreq_names,
    NodeType.math_names, NodeType.compare_names, NodeType.scope_names, NodeType.spectrum_names,
    NodeType.meter_names, NodeType.probe_names, NodeType.output_names, by simp⟩

end Patchbay
