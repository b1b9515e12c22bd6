import Mathlib
import Patchbay.NodeType.Builtin
import Patchbay.Proofs.Provenance

/-!
# Built-in node types construct soundly

With a signal for each of its inlets a built-in node type does not fail, and what it gives are
expressions, one for each of its outlets. The addresses of its nodes come from a list of slots that
keeps clear of those that the compiler fills.
-/

set_option autoImplicit false

namespace Patchbay

variable {known : Set Expr} {names : List Address}

/-- What the sink, an orphan and an edge are given by the compiler. -/
def channelSlots : List Slot :=
  [.key (":" ++ "left" ++ ":silence"), .key (":" ++ "right" ++ ":silence")]

def orphanSlots : List Slot := [.key ":zero"]

def edgeSlots : List Slot := [.tag .meter ":meter", .tag .scope ":scope", .key ":z"]

/-- A slot that nodes of a type may have. The taps of a probe alone are named like those of an
edge. -/
def NodeInfo.Permits (info : NodeInfo) (s : Slot) : Prop :=
  s.Marked ∧ s ∉ channelSlots ∧ s ∉ orphanSlots ∧ s ≠ .key ":z" ∧
    (info.id ≠ "probe" → s ∉ edgeSlots)

instance (info : NodeInfo) : DecidablePred info.Permits :=
  fun _ => inferInstanceAs (Decidable (_ ∧ _))

/-- All outlets are expressions at hand, the declared ones among them. -/
structure Outputs.Gives (known : Set Expr) (names : List String) (o : Outputs) : Prop where
  expr : ∀ name s, o.find? name = some s → ∃ e ∈ known, s = .expr e
  some : ∀ name ∈ names, ∃ s, o.find? name = some s

theorem Outputs.gives_empty : Gives known [] Table.empty :=
  ⟨fun _ _ h => (by cases h), by simp⟩

theorem Outputs.Gives.insert {names : List String} {o : Outputs} (h : o.Gives known names)
    (name : String) {e : Expr} (he : e ∈ known) :
    Gives known (name :: names) (Table.insert o name (.expr e)) := by
  refine ⟨fun name' s hs => ?_, fun name' hn => ?_⟩
  · rw [Table.find?_insert] at hs
    split at hs
    · cases hs
      exact ⟨e, he, rfl⟩
    · exact h.expr name' s hs
  · rw [Table.find?_insert]
    split
    · exact ⟨_, rfl⟩
    · next hne =>
      rcases List.mem_cons.1 hn with rfl | hn
      · exact absurd rfl hne
      · exact h.some name' hn

theorem Outputs.gives_ofExpr {e : Expr} (he : e ∈ known) :
    Gives known ["signal"] (Outputs.ofExpr e) :=
  gives_empty.insert "signal" he

namespace NodeType

/-- With its inlets resolved a node type gives all of its outlets, and no more addresses than
there are slots. -/
def Fills (t : NodeType) (slots : List Slot) : Prop :=
  ∀ (known : Set Expr) (inputs : Inputs) (id : String),
    inputs.Offers known (t.info.inlets.map Inlet.name) →
    NodeBuild.Makes known (slots.map (Slot.of id)) (t.compile inputs id) []
      fun known' o => o.Gives known' t.info.outlets

def Sound (t : NodeType) : Prop :=
  ∃ slots : List Slot, slots.Nodup ∧ (∀ s ∈ slots, t.info.Permits s) ∧ t.Fills slots

open NodeBuild (Makes)

theorem ofExpr_makes {left : List Address} {b : NodeBuild Expr}
    (h : Makes known names b left fun known' e => e ∈ known') :
    Makes known names (do return .ofExpr (← b)) []
      fun known' o => Outputs.Gives known' ["signal"] o :=
  .drop (.bind h fun _ _ _ he => .pure (Outputs.gives_ofExpr he))

theorem withInput_makes {inlets : List String} {inputs : Inputs} (h : inputs.Offers known inlets)
    (hi : "input" ∈ inlets) (id : String) (process : Expr → NodeBuild Expr)
    (hp : ∀ known', known ⊆ known' → ∀ input ∈ known',
      Makes known' names (process input) [] fun known' e => e ∈ known') :
    Makes known (.key (id ++ ":silence") :: names) (withInput inputs id process) []
      fun known' o => Outputs.Gives known' ["signal"] o := by
  refine .bind (h.get hi) fun k₁ h₁ s hs => ?_
  cases s with
  | literal v => exact ofExpr_makes (.lift .keyedConst)
  | expr input => exact ofExpr_makes (.skip (hp k₁ h₁ input hs))

theorem meteredInlet_makes {inlets : List String} {inputs : Inputs}
    (h : inputs.Offers known inlets) {inlet : String} (hi : inlet ∈ inlets) (id : String) :
    Makes known ([.key (":" ++ inlet), .own .meter].map (Slot.of id))
      (meteredInlet inlet inputs id) [] fun known' o => Outputs.Gives known' ["signal"] o := by
  refine .bind (h.keyed hi) fun k₁ h₁ value hv => ?_
  exact ofExpr_makes (.lift (.meter hv))

theorem number_sound : Sound number :=
  ⟨_, by decide, by decide, fun _ _ id h => meteredInlet_makes h (by simp [number]) id⟩

theorem bang_sound : Sound bang :=
  ⟨_, by decide, by decide, fun _ _ id h => meteredInlet_makes h (by simp [bang]) id⟩

theorem keyboard_sound : Sound keyboard := by
  refine ⟨[.key ":note", .key ":gate"], by decide, by decide, fun known inputs id _ => ?_⟩
  refine .bind (.lift .keyedConst) fun k₁ h₁ note hn => ?_
  refine .bind (.lift .keyedConst) fun k₂ h₂ gate hg => ?_
  have := (Outputs.gives_empty.insert "note" (h₂ hn)).insert "gate" hg
  exact .pure ⟨this.expr, fun name h => this.some name (by simpa [keyboard, or_comm] using h)⟩

theorem pulseRate_makes (id : String) {bpm : Signal} (h : bpm.In known) :
    (pulseRate id bpm).Makes known (.key (id ++ ":rate") :: names) names
      fun known' e => e ∈ known' := by
  cases bpm with
  | literal bpm => exact .keyedConst
  | expr bpm => exact .skip (.binary h trivial)

theorem metro_sound : Sound metro := by
  refine ⟨[.key ":rate", .own .meter], by decide, by decide, fun known inputs id h => ?_⟩
  refine .bind (h.get (by simp [metro])) fun k₁ h₁ bpm hb => ?_
  refine .bind (.lift (pulseRate_makes id hb)) fun k₂ h₂ rate hr => ?_
  refine .bind (.lift (.oscillator hr)) fun k₃ h₃ pulses hp => ?_
  exact ofExpr_makes (.lift (.meter hp))

theorem sequencer_sound : Sound sequencer := by
  refine ⟨[.key (":" ++ "trigger"), .key (":" ++ "reset"), .key ":pos:zero", .tag .meter ":pos"],
    by decide, by decide, fun known inputs id h => ?_⟩
  refine .bind (h.keyed (by simp [sequencer])) fun k₁ h₁ trigger ht => ?_
  refine .bind ((h.mono h₁).keyed (by simp [sequencer])) fun k₂ h₂ reset hr => ?_
  refine .bind (.lift (.steps (h₂ ht) hr)) fun k₃ h₃ position hp => ?_
  refine .bind (.lift .keyedConst) fun k₄ h₄ zero hz => ?_
  refine .bind (.lift (.meter (h₄ hp))) fun k₅ h₅ metered hm => ?_
  refine .bind (.lift (.binary (h₅ hz) hm)) fun k₆ h₆ probe hpr => ?_
  have h₂₆ := h₃.trans (h₄.trans (h₅.trans h₆))
  refine .bind (.lift (.steps (h₂₆ (h₂ ht)) (h₂₆ hr))) fun k₇ h₇ value hv => ?_
  exact ofExpr_makes (.lift (.binary hv (h₇ hpr)))

theorem gateLevel_makes (id : String) {gate : Signal} (h : gate.In known) :
    (gateLevel id gate).Makes known (.key (id ++ ":gate") :: names) names
      fun known' e => e ∈ known' := by
  cases gate with
  | literal v => exact .keyedConst
  | expr e => exact .skip (.pure h)

theorem envelope_sound : Sound envelope := by
  refine ⟨[.key ":gate", .key (":" ++ "attack"), .key (":" ++ "decay"), .key (":" ++ "sustain"),
    .key (":" ++ "release"), .own .meter], by decide, by decide, fun known inputs id h => ?_⟩
  refine .bind (h.get (by simp [envelope])) fun k₁ h₁ gate hg => ?_
  refine .bind (.lift (gateLevel_makes id hg)) fun k₂ h₂ gate hg => ?_
  have o₂ := (h.mono h₁).mono h₂
  refine .bind (o₂.keyed (by simp [envelope])) fun k₃ h₃ attack ha => ?_
  refine .bind ((o₂.mono h₃).keyed (by simp [envelope])) fun k₄ h₄ decay hd => ?_
  have o₄ := (o₂.mono h₃).mono h₄
  refine .bind (o₄.keyed (by simp [envelope])) fun k₅ h₅ sustain hs => ?_
  refine .bind ((o₄.mono h₅).keyed (by simp [envelope])) fun k₆ h₆ release hr => ?_
  refine .bind (.lift (.envelope (h₆ (h₅ (h₄ ha))) (h₆ (h₅ hd)) (h₆ hs) hr
    (h₆ (h₅ (h₄ (h₃ hg)))))) fun k₇ h₇ contour hc => ?_
  exact ofExpr_makes (.lift (.meter hc))

theorem scaledWave_makes {inlets : List String} {inputs : Inputs} (h : inputs.Offers known inlets)
    {rate scale : String} (hr : rate ∈ inlets) (hs : scale ∈ inlets) (id : String) :
    Makes known ([.key (":" ++ rate), .key (":" ++ scale)].map (Slot.of id))
      (scaledWave rate scale inputs id) [] fun known' o => Outputs.Gives known' ["signal"] o := by
  refine .bind (h.keyed hr) fun k₁ h₁ rate hr => ?_
  refine .bind ((h.mono h₁).keyed hs) fun k₂ h₂ scale hs => ?_
  refine .bind (.lift (.oscillator (h₂ hr))) fun k₃ h₃ wave hw => ?_
  exact ofExpr_makes (.lift (.binary hw (h₃ hs)))

theorem oscillator_sound : Sound oscillator :=
  ⟨_, by decide, by decide, fun _ _ id h =>
    scaledWave_makes h (by simp [oscillator]) (by simp [oscillator]) id⟩

theorem lfo_sound : Sound lfo :=
  ⟨_, by decide, by decide, fun _ _ id h =>
    scaledWave_makes h (by simp [lfo]) (by simp [lfo]) id⟩

theorem coloured_makes {white : Expr} (h : white ∈ known) (c : NoiseColor) :
    (coloured white c).Makes known names names fun known' e => e ∈ known' := by
  cases c with
  | white => exact .pure h
  | pink => exact .filter trivial trivial h

theorem noise_sound : Sound noise := by
  refine ⟨[.key (":" ++ "gain")], by decide, by decide, fun known inputs id h => ?_⟩
  refine .bind (.lift .noise) fun k₁ h₁ white hw => ?_
  refine .bind (.lift (coloured_makes hw _)) fun k₂ h₂ source hs => ?_
  refine .bind (((h.mono h₁).mono h₂).keyed (by simp [noise])) fun k₃ h₃ gain hg => ?_
  exact ofExpr_makes (.lift (.binary (h₃ hs) hg))

theorem gain_sound : Sound gain := by
  refine ⟨[.key ":silence", .key (":" ++ "gain")], by decide, by decide,
    fun known inputs id h => ?_⟩
  refine withInput_makes h (by simp [gain]) id _ fun k₁ h₁ input hi => ?_
  refine .bind ((h.mono h₁).keyed (by simp [gain])) fun k₂ h₂ gain hg => ?_
  exact .lift (.binary (h₂ hi) hg)

theorem filter_sound : Sound filter := by
  refine ⟨[.key ":silence", .key (":" ++ "cutoff"), .key (":" ++ "q")], by decide, by decide,
    fun known inputs id h => ?_⟩
  refine withInput_makes h (by simp [filter]) id _ fun k₁ h₁ input hi => ?_
  refine .bind ((h.mono h₁).keyed (by simp [filter])) fun k₂ h₂ cutoff hc => ?_
  refine .bind (((h.mono h₁).mono h₂).keyed (by simp [filter])) fun k₃ h₃ q hq => ?_
  exact .lift (.filter (h₃ hc) hq (h₃ (h₂ hi)))

theorem crossfade_makes {a b balance : Expr} (ha : a ∈ known) (hb : b ∈ known)
    (hc : balance ∈ known) :
    (crossfade a b balance).Makes known names names fun known' e => e ∈ known' := by
  refine .bind (.binary trivial hc) fun k₁ h₁ rest hr => ?_
  refine .bind (.binary (h₁ ha) hr) fun k₂ h₂ a ha => ?_
  refine .bind (.binary (h₂ (h₁ hb)) (h₂ (h₁ hc))) fun k₃ h₃ b hb => ?_
  exact .binary (h₃ ha) hb

theorem delay_sound : Sound delay := by
  refine ⟨[.key ":silence", .key (":" ++ "time"), .key (":" ++ "feedback"), .key (":" ++ "mix")],
    by decide, by decide, fun known inputs id h => ?_⟩
  refine withInput_makes h (by simp [delay]) id _ fun k₁ h₁ input hi => ?_
  have o₁ := h.mono h₁
  refine .bind (o₁.keyed (by simp [delay])) fun k₂ h₂ time ht => ?_
  refine .bind ((o₁.mono h₂).keyed (by simp [delay])) fun k₃ h₃ feedback hf => ?_
  refine .bind (((o₁.mono h₂).mono h₃).keyed (by simp [delay])) fun k₄ h₄ mix hm => ?_
  have hi₄ := h₄ (h₃ (h₂ hi))
  refine .bind (.lift (.delay (h₄ (h₃ ht)) (h₄ hf) hi₄)) fun k₅ h₅ wet hw => ?_
  exact .lift (crossfade_makes (h₅ hi₄) hw (h₅ hm))

theorem mixSide_makes (name id : String) {s : Signal} (h : s.In known) :
    (mixSide name id s).Makes known (.key (id ++ (":" ++ name)) :: names) names
      fun known' e => e ∈ known' := by
  rw [← String.append_assoc]
  cases s with
  | literal v => exact .keyedConst
  | expr e => exact .skip (.pure h)

theorem mix_sound : Sound mix := by
  refine ⟨[.key ":silence", .key (":" ++ "a"), .key (":" ++ "b"), .key (":" ++ "balance")],
    by decide, by decide, fun known inputs id h => ?_⟩
  refine .bind (h.get (by simp [mix])) fun k₁ h₁ a ha => ?_
  refine .bind ((h.mono h₁).get (by simp [mix])) fun k₂ h₂ b hb => ?_
  have o₂ := (h.mono h₁).mono h₂
  split
  · exact ofExpr_makes (.lift .keyedConst)
  · refine .skip ?_
    refine .bind (.lift (mixSide_makes "a" id (ha.mono h₂))) fun k₃ h₃ a ha => ?_
    refine .bind (.lift (mixSide_makes "b" id (hb.mono h₃))) fun k₄ h₄ b hb => ?_
    refine .bind (((o₂.mono h₃).mono h₄).keyed (by simp [mix])) fun k₅ h₅ balance hc => ?_
    exact ofExpr_makes (.lift (crossfade_makes (h₅ (h₄ ha)) (h₅ hb) hc))

theorem frequencyOf_makes (id : String) {note : Signal} (h : note.In known) :
    (frequencyOf id note).Makes known (.key (id ++ ":freq") :: names) names
      fun known' e => e ∈ known' := by
  cases note with
  | literal note => exact .keyedConst
  | expr note =>
    refine .skip ?_
    refine .bind (.binary h trivial) fun k₁ h₁ above ha => ?_
    refine .bind (.binary ha trivial) fun k₂ h₂ octaves ho => ?_
    refine .bind (.binary trivial ho) fun k₃ h₃ ratio hr => ?_
    exact .binary trivial hr

theorem noteToFreq_sound : Sound noteToFreq := by
  refine ⟨[.key ":freq"], by decide, by decide, fun known inputs id h => ?_⟩
  refine .bind (h.get (by simp [noteToFreq])) fun k₁ h₁ note hn => ?_
  refine .bind (.lift (frequencyOf_makes id hn)) fun k₂ h₂ frequency hf => ?_
  exact .pure (Outputs.gives_empty.insert "frequency" hf)

theorem operation_makes {inlets : List String} {inputs : Inputs} (h : inputs.Offers known inlets)
    (ha : "a" ∈ inlets) (hb : "b" ∈ inlets) (f : BinaryOp) (fold : Float32 → Float32 → Float32)
    (id : String) :
    Makes known (.key (id ++ ":a") :: .key (id ++ ":b") :: .key (id ++ ":value") :: names)
      (operation f fold inputs id) names fun known' e => e ∈ known' := by
  refine .bind (h.get ha) fun k₁ h₁ a ha => ?_
  refine .bind ((h.mono h₁).get hb) fun k₂ h₂ b hb => ?_
  split
  · exact .skip (.skip (.lift .keyedConst))
  · refine .bind (.lift (.liftKeyed (ha.mono h₂))) fun k₃ h₃ a ha => ?_
    refine .bind (.lift (.liftKeyed (hb.mono h₃))) fun k₄ h₄ b hb => ?_
    exact .skip (.lift (.binary (h₄ ha) hb))

theorem math_sound : Sound math := by
  refine ⟨[.key ":a", .key ":b", .key ":value", .own .meter], by decide, by decide,
    fun known inputs id h => ?_⟩
  refine .bind (operation_makes h (by simp [math]) (by simp [math]) _ _ id)
    fun k₁ h₁ result hr => ?_
  exact ofExpr_makes (.lift (.meter hr))

theorem compare_sound : Sound compare := by
  refine ⟨[.key ":a", .key ":b", .key ":value"], by decide, by decide,
    fun known inputs id h => ?_⟩
  exact ofExpr_makes (operation_makes h (by simp [compare]) (by simp [compare]) _ _ id)

theorem scope_sound : Sound scope := by
  refine ⟨[.key ":silence", .own .scope], by decide, by decide, fun known inputs id h => ?_⟩
  refine withInput_makes h (by simp [scope, inputInlet]) id _ fun k₁ h₁ input hi => ?_
  exact .lift (.scope hi (by decide))

theorem spectrum_sound : Sound spectrum := by
  refine ⟨[.key ":silence", .own .fft], by decide, by decide, fun known inputs id h => ?_⟩
  refine withInput_makes h (by simp [spectrum, inputInlet]) id _ fun k₁ h₁ input hi => ?_
  exact .lift (.fft hi (by decide))

theorem meter_sound : Sound meter := by
  refine ⟨[.key ":silence", .own .meter], by decide, by decide, fun known inputs id h => ?_⟩
  refine withInput_makes h (by simp [meter, inputInlet]) id _ fun k₁ h₁ input hi => ?_
  exact .lift (.meter hi)

theorem probe_sound : Sound probe := by
  refine ⟨[.key ":silence", .tag .meter ":meter", .tag .scope ":scope"], by decide, by decide,
    fun known inputs id h => ?_⟩
  refine withInput_makes h (by simp [probe, inputInlet]) id _ fun k₁ h₁ input hi => ?_
  refine .bind (.lift (.meter hi)) fun k₂ h₂ metered hm => ?_
  exact .lift (.scope hm (by decide))

theorem rightChannel_makes (id : String) {left : Expr} (hl : left ∈ known) {s : Signal}
    (h : s.In known) :
    (rightChannel id left s).Makes known (.tag ⟨.meter, id ++ ":R"⟩ :: names) names
      fun known' e => e ∈ known' := by
  cases s with
  | literal v => exact .skip (.pure hl)
  | expr right => exact .meter h

theorem muteGain_makes (id : String) {muted : Signal} (h : muted.In known) :
    (muteGain id muted).Makes known (.key (id ++ ":mute") :: names) names
      fun known' e => e ∈ known' := by
  cases muted with
  | literal v => exact .keyedConst
  | expr e => exact .skip (.binary h trivial)

theorem output_sound : Sound output := by
  refine ⟨[.key (":" ++ "left"), .tag .meter ":L", .tag .meter ":R", .key ":mute"], by decide,
    by decide, fun known inputs id h => ?_⟩
  refine .bind (h.keyed (by simp [output])) fun k₁ h₁ left hl => ?_
  refine .bind (.lift (.meter hl)) fun k₂ h₂ left hl => ?_
  have o₂ := (h.mono h₁).mono h₂
  refine .bind (o₂.get (by simp [output])) fun k₃ h₃ right hr => ?_
  refine .bind (.lift (rightChannel_makes id (h₃ hl) hr)) fun k₄ h₄ right hr => ?_
  refine .bind (((o₂.mono h₃).mono h₄).get (by simp [output])) fun k₅ h₅ muted hm => ?_
  refine .bind (.lift (muteGain_makes id hm)) fun k₆ h₆ gain hg => ?_
  refine .bind (.lift (.binary (h₆ (h₅ (h₄ (h₃ hl)))) hg)) fun k₇ h₇ left hl => ?_
  refine .bind (.lift (.binary (h₇ (h₆ (h₅ hr))) (h₇ hg))) fun k₈ h₈ right hr => ?_
  have := (Outputs.gives_empty.insert "left" (h₈ hl)).insert "right" hr
  exact .pure ⟨this.expr, fun name h => this.some name (by simpa [output, or_comm] using h)⟩

end NodeType

/-- What is found of a category is one of its types. -/
theorem Registry.find?_of_category {registry : Registry} {type : String} {c : Category}
    (h : (registry.find? type).any (·.info.category = c) = true) :
    ∃ t ∈ registry.types.filter (·.info.category = c), registry.find? type = some t := by
  obtain ⟨t, ht, hc⟩ := (Option.any_eq_true _ _).1 h
  exact ⟨t, List.mem_filter.2 ⟨List.mem_of_find?_eq_some ht, hc⟩, ht⟩

theorem builtin_sound : ∀ t ∈ Registry.builtin.types, t.Sound := by
  simp only [Registry.builtin, NodeType.builtins, List.forall_mem_cons]
  exact ⟨NodeType.oscillator_sound, NodeType.lfo_sound, NodeType.noise_sound,
    NodeType.number_sound, NodeType.bang_sound, NodeType.keyboard_sound, NodeType.metro_sound,
    NodeType.sequencer_sound, NodeType.envelope_sound, NodeType.gain_sound,
    NodeType.filter_sound, NodeType.delay_sound, NodeType.mix_sound, NodeType.noteToFreq_sound,
    NodeType.math_sound, NodeType.compare_sound, NodeType.scope_sound, NodeType.spectrum_sound,
    NodeType.meter_sound, NodeType.probe_sound, NodeType.output_sound, by simp⟩

end Patchbay
