import Mathlib
import Patchbay.NodeType.Builtin
import Patchbay.Proofs.Relational
import Patchbay.Proofs.Zero

/-!
# Numbers in the place of connections

What a built-in node type makes of a number that stands in one of its inlets sounds like what it
makes of a connection that is this number for ever, whether it takes the number as it is, converts
it at once or has a renderer of its own for connections.
-/

set_option autoImplicit false

namespace Patchbay

open Patchbay.Expr

variable {rate : Float32}

namespace NodeInfo

/-- The inlets in which a number means that nothing is connected. -/
def audioInlets (i : NodeInfo) : List String :=
  if i.id ∈ ["gain", "filter", "delay", "scope", "fft", "meter", "probe"] then ["input"]
  else if i.id = "mix" then ["a", "b"]
  else if i.id = "output" then ["right"]
  else []

end NodeInfo

/-- Two nodes of one type that see the same, if some numbers are taken for what is connected
instead. -/
structure Inputs.Like (rate : Float32) (info : NodeInfo) (i i' : Inputs) : Prop where
  params : i.params = i'.params
  signal : ∀ name ∈ info.inlets.map Inlet.name, ∃ s s', i.signal name = .ok s ∧
    i'.signal name = .ok s' ∧ Signal.Like rate s s' ∧ (name ∈ info.audioInlets → s = s')

namespace Inputs.Like

variable {info : NodeInfo} {i i' : Inputs}

theorem numberOr (h : Inputs.Like rate info i i') (name : String) (default : Float32) :
    i.numberOr name default = i'.numberOr name default := by
  rw [Inputs.numberOr, Inputs.numberOr, h.params]

theorem choice {α : Type} (h : Inputs.Like rate info i i') (name : String)
    (parse : String → Option α) (default : α) :
    i.choice name parse default = i'.choice name parse default := by
  rw [Inputs.choice, Inputs.choice, Inputs.text?, Inputs.text?, h.params]

theorem get (h : Inputs.Like rate info i i') {name : String}
    (hn : name ∈ info.inlets.map Inlet.name) :
    NodeBuild.Relates (i.get name) (i'.get name) fun s s' => i.signal name = .ok s ∧
      i'.signal name = .ok s' ∧ Signal.Like rate s s' ∧ (name ∈ info.audioInlets → s = s') := by
  obtain ⟨s, s', hs, hs', hlike⟩ := h.signal name hn
  intro l l'
  exact ⟨s, s', hs, hs', hs, hs', hlike⟩

theorem keyed (h : Inputs.Like rate info i i') {name : String}
    (hn : name ∈ info.inlets.map Inlet.name) (id : String) :
    NodeBuild.Relates (i.keyed name id) (i'.keyed name id) (Alike rate) :=
  .bind (h.get hn) fun _ _ hs => .lift (.liftKeyed _ hs.2.2.1)

end Inputs.Like

/-- Both give the outlets, and what they give sounds alike up to the signs of zeros. -/
def Outputs.Like (rate : Float32) (names : List String) (o o' : Outputs) : Prop :=
  ∀ name ∈ names, ∃ x x', o.find? name = some (.expr x) ∧ o'.find? name = some (.expr x') ∧
    Akin rate Single.Same x x'

theorem Outputs.like_nil (o o' : Outputs) : Outputs.Like rate [] o o' := by simp [Outputs.Like]

theorem Outputs.Like.insert {names : List String} {o o' : Outputs}
    (h : Outputs.Like rate names o o') (name : String) {x x' : Expr} (hx : Akin rate Single.Same x x') :
    Outputs.Like rate (name :: names) (Table.insert o name (.expr x))
      (Table.insert o' name (.expr x')) := by
  intro name' hn
  rw [Table.find?_insert, Table.find?_insert]
  by_cases hname : name = name'
  · rw [if_pos hname, if_pos hname]
    exact ⟨x, x', rfl, rfl, hx⟩
  · rw [if_neg hname, if_neg hname]
    exact h name' ((List.mem_cons.1 hn).resolve_left (Ne.symm hname))

theorem Outputs.like_ofExpr {x x' : Expr} (h : Akin rate Single.Same x x') :
    Outputs.Like rate ["signal"] (Outputs.ofExpr x) (Outputs.ofExpr x') :=
  (Outputs.like_nil _ _).insert "signal" h

/-- If the operands of a math node are both numbers, so is what it makes of them. -/
def FoldsFinite (i : Inputs) : Prop :=
  ∀ a b, i.signal "a" = .ok (.literal a) → i.signal "b" = .ok (.literal b) →
    ((i.choice "operation" BinaryOp.ofMathName? .add).fold a b).isFinite = true

namespace NodeType

/-- A number in an inlet and a connection that is this number for ever come to the same. -/
def Interchanges (t : NodeType) : Prop :=
  ∀ (rate : Float32) (i i' : Inputs) (id : String), (0.0 : Float32) < rate →
    rate.isFinite = true → Inputs.Like rate t.info i i' → (t.info.id = "math" → FoldsFinite i) →
    NodeBuild.Relates (t.compile i id) (t.compile i' id) (Outputs.Like rate t.info.outlets)

open NodeBuild (Relates)

theorem ofExpr_akin {b b' : NodeBuild Expr} (h : Relates b b' (Akin rate Single.Same)) :
    Relates (do return .ofExpr (← b)) (do return .ofExpr (← b')) (Outputs.Like rate ["signal"]) :=
  .bind h fun _ _ hx => .pure (Outputs.like_ofExpr hx)

theorem ofExpr_relates {b b' : NodeBuild Expr} (h : Relates b b' (Alike rate)) :
    Relates (do return .ofExpr (← b)) (do return .ofExpr (← b')) (Outputs.Like rate ["signal"]) :=
  .bind h fun _ _ hx => .pure (Outputs.like_ofExpr (.alike hx))

variable {info : NodeInfo} {i i' : Inputs}

theorem withInput_relates (h : Inputs.Like rate info i i')
    (hi : "input" ∈ info.inlets.map Inlet.name) (ha : "input" ∈ info.audioInlets) (id : String)
    {process process' : Expr → NodeBuild Expr}
    (hp : ∀ input, Relates (process input) (process' input) (Alike rate)) :
    Relates (withInput i id process) (withInput i' id process') (Outputs.Like rate ["signal"]) := by
  refine .bind (h.get hi) fun s s' hs => ?_
  obtain rfl := hs.2.2.2 ha
  cases s with
  | literal v => exact ofExpr_relates (.lift (.keyedConst rate _ _ _))
  | expr input => exact ofExpr_relates (hp input)

theorem meteredInlet_relates (h : Inputs.Like rate info i i') {inlet : String}
    (hi : inlet ∈ info.inlets.map Inlet.name) (id : String) :
    Relates (meteredInlet inlet i id) (meteredInlet inlet i' id) (Outputs.Like rate ["signal"]) :=
  .bind (h.keyed hi id) fun _ _ hv => ofExpr_relates (.lift (.tap _ (.expr hv)))

theorem number_interchanges : Interchanges number :=
  fun _ _ _ id _ _ h _ => meteredInlet_relates h (by simp [number]) id

theorem bang_interchanges : Interchanges bang :=
  fun _ _ _ id _ _ h _ => meteredInlet_relates h (by simp [bang]) id

theorem keyboard_interchanges : Interchanges keyboard := by
  intro rate i i' id _ _ h _
  rw [keyboard]
  simp only [h.numberOr]
  refine .bind (.lift (.keyedConst rate _ _ _)) fun note note' hn => ?_
  refine .bind (.lift (.keyedConst rate _ _ _)) fun gate gate' hg => ?_
  have hlike := ((Outputs.like_nil Table.empty Table.empty).insert "note" (.alike hn)).insert
    "gate" (.alike hg)
  exact .pure fun name hname => hlike name (by simpa [or_comm] using hname)

/-- At this frequency a phase stands still. -/
def Still (hz : Float32) : Prop :=
  ((if hz.isFinite then Single.max hz 0.0 else 0.0) == 0.0) = true

/-- A tempo is converted at once as it is at every frame, but for one that goes backwards or is
no number: these keep a clock from going either way. -/
theorem beatRate_cases (bpm : Float32) :
    beatRate bpm = bpm / 60.0 ∨ Still (beatRate bpm) ∧ Still (bpm / 60.0) := by
  have hstill : Still 0.0 := by
    show _ = true
    decide
  by_cases hf : bpm.isFinite = true
  · have hnan := Single.isNaN_of_finite hf
    by_cases hneg : bpm < 0.0
    · right
      have hzero : beatRate bpm = 0.0 := by
        rw [beatRate, if_pos hf, Single.max, if_neg hnan, if_pos hneg]
        decide
      refine ⟨hzero ▸ hstill, ?_⟩
      rw [Still]
      split
      · exact Single.max_zero (Single.not_positive_div hneg hf (by decide) (by decide))
      · decide
    · left
      rw [beatRate, if_pos hf, Single.max, if_neg hnan, if_neg hneg]
  · right
    rw [Bool.not_eq_true] at hf
    refine ⟨?_, ?_⟩
    · rw [beatRate, if_neg (by simp [hf])]
      exact hstill
    · rw [Still, if_neg (by simp [Single.isFinite_div_of_not 60.0 hf])]
      decide

theorem advance_still {hz v : Float32} (h0 : (0.0 : Float32) < rate)
    (hf : rate.isFinite = true) (hstill : Still v) :
    ((⟨0.0, hz, rate, .gate⟩ : Oscillator).setFrequency v).advance =
      (1.0, ⟨0.0, if v.isFinite then Single.max v 0.0 else 0.0, rate, .gate⟩) := by
  -- the increment is a zero of either sign, and the phase stays at the start of the cycle
  have hwrap : Oscillator.wrap
      (0.0 + (if v.isFinite then Single.max v 0.0 else 0.0) / rate) = 0.0 := by
    rcases Single.zero_cases (Single.zero_div hstill h0 hf) with hinc | hinc
    · rw [hinc]
      decide
    · rw [hinc]
      decide
  have hhigh : (0.0 : Float32) < 0.5 := by decide
  have hset : (⟨0.0, hz, rate, .gate⟩ : Oscillator).setFrequency v =
      ⟨0.0, if v.isFinite then Single.max v 0.0 else 0.0, rate, .gate⟩ := rfl
  rw [hset, Oscillator.advance]
  simp only [Oscillator.sample, if_pos hhigh, Oscillator.increment, hwrap]

/-- A clock that stands still is high for ever. -/
theorem steady_gate {v : Float32} {e : Expr} (h0 : (0.0 : Float32) < rate)
    (hf : rate.isFinite = true) (h : Expr.Steady rate v e) (hstill : Still v) (l : Label) :
    Expr.Steady rate 1.0 (.node l (.oscillator .gate) none [e]) := by
  refine steady_node (by rintro v ⟨⟩) rfl (.cons h .nil) rfl
    (fun k => ∃ hz, k = .oscillator ⟨0.0, hz, rate, .gate⟩) ⟨_, rfl⟩ ?_ l
  rintro now ⟨hz, rfl⟩
  refine ⟨_, rfl, ?_, if v.isFinite then Single.max v 0.0 else 0.0, ?_⟩
  · exact congrArg Prod.fst (advance_still h0 hf hstill)
  · exact congrArg (fun x => Kernel.oscillator x.2) (advance_still h0 hf hstill)

theorem pulseRate_relates (id : String) {s s' : Signal} (h : Signal.Like rate s s') :
    Build.Relates (pulseRate id s) (pulseRate id s')
      (Akin rate fun hz hz' => Still hz ∧ Still hz') := by
  cases h with
  | literal bpm => exact fun _ _ => .alike ((steady_const _ _ _).alike (steady_const _ _ _))
  | expr h =>
    exact fun l l' => .alike (Build.Relates.binary .div (.expr h) (.literal 60.0) l l')
  | connected h =>
    next bpm e =>
    have hrate := Build.Yields.keyedConst rate (id ++ ":rate") (beatRate bpm)
    have hquotient : Build.Yields (Build.binary .div (.expr e) (.literal 60.0))
        (Expr.Steady rate (bpm / 60.0)) := .binary .div h rfl
    refine hrate.relates hquotient fun x x' hx hx' => ?_
    rcases beatRate_cases bpm with heq | hstill
    · exact .alike (hx.alike (heq ▸ hx'))
    · exact .steady hx hx' hstill

theorem gate_relates (h0 : (0.0 : Float32) < rate) (hf : rate.isFinite = true) {x x' : Expr}
    (h : Akin rate (fun hz hz' => Still hz ∧ Still hz') x x') :
    Build.Relates (Build.oscillator .gate (.expr x)) (Build.oscillator .gate (.expr x'))
      (Alike rate) := by
  cases h with
  | alike h => exact .oscillator .gate (.expr h)
  | steady hx hx' h =>
    exact fun l l' => (steady_gate h0 hf hx h.1 l).alike (steady_gate h0 hf hx' h.2 l')

theorem metro_interchanges : Interchanges metro := by
  intro rate i i' id h0 hf h _
  refine .bind (h.get (by simp [metro])) fun s s' hs => ?_
  refine .bind (.lift (pulseRate_relates id hs.2.2.1)) fun hz hz' hr => ?_
  refine .bind (.lift (gate_relates h0 hf hr)) fun x x' hx => ?_
  exact ofExpr_relates (.lift (.tap _ (.expr hx)))

theorem sequencer_interchanges : Interchanges sequencer := by
  intro rate i i' id _ _ h _
  have hvalues : stepValues i = stepValues i' := by
    rw [stepValues, stepValues]
    simp only [h.params, h.numberOr]
  rw [sequencer]
  simp only [hvalues]
  refine .bind (h.keyed (by simp [sequencer]) id) fun trigger trigger' ht => ?_
  refine .bind (h.keyed (by simp [sequencer]) id) fun reset reset' hr => ?_
  refine .bind (.lift (.steps _ _ _ (.expr ht) (.expr hr))) fun position position' hp => ?_
  refine .bind (.lift (.keyedConst rate _ _ _)) fun zero zero' hz => ?_
  refine .bind (.lift (.tap _ (.expr hp))) fun metered metered' hm => ?_
  refine .bind (.lift (.binary _ (.expr hz) (.expr hm))) fun probe probe' hpr => ?_
  refine .bind (.lift (.steps _ _ _ (.expr ht) (.expr hr))) fun value value' hv => ?_
  exact ofExpr_relates (.lift (.binary _ (.expr hv) (.expr hpr)))

/-- A number in the place of the gate is on or off at once, where a connection is compared at every
frame. -/
theorem gateLevel_relates (id : String) {s s' : Signal} (h : Signal.Like rate s s') :
    Build.Relates (gateLevel id s) (gateLevel id s')
      (Akin rate fun v w => decide ((0.0 : Float32) < v) = decide ((0.0 : Float32) < w)) := by
  cases h with
  | literal v => exact fun _ _ => .alike ((steady_const _ _ _).alike (steady_const _ _ _))
  | expr h => exact .pure (.alike h)
  | connected h =>
    next v e =>
    have hlevel := Build.Yields.keyedConst rate (id ++ ":gate") (truth (0.0 < v))
    refine hlevel.relates (.pure h) fun x x' hx hx' => .steady hx hx' ?_
    cases decide ((0.0 : Float32) < v) <;> decide

theorem envelope_interchanges : Interchanges envelope := by
  intro rate i i' id _ _ h _
  refine .bind (h.get (by simp [envelope])) fun s s' hs => ?_
  refine .bind (.lift (gateLevel_relates id hs.2.2.1)) fun gate gate' hg => ?_
  refine .bind (h.keyed (by simp [envelope]) id) fun attack attack' ha => ?_
  refine .bind (h.keyed (by simp [envelope]) id) fun decay decay' hd => ?_
  refine .bind (h.keyed (by simp [envelope]) id) fun sustain sustain' hs => ?_
  refine .bind (h.keyed (by simp [envelope]) id) fun release release' hr => ?_
  have hcontour : Build.Relates
      (Build.envelope (.expr attack) (.expr decay) (.expr sustain) (.expr release) (.expr gate))
      (Build.envelope (.expr attack') (.expr decay') (.expr sustain') (.expr release')
        (.expr gate')) (Alike rate) := by
    intro l l'
    refine Alike.trans ?_ (alike_gate hg l' none)
    exact alike_node (by simp)
      (.cons ha (.cons hd (.cons hs (.cons hr (.cons (alike_refl rate gate) .nil))))) l l'
  refine .bind (.lift hcontour) fun contour contour' hc => ?_
  exact ofExpr_relates (.lift (.tap _ (.expr hc)))

theorem scaledWave_relates (h : Inputs.Like rate info i i') {speed scale : String}
    (hs : speed ∈ info.inlets.map Inlet.name) (hc : scale ∈ info.inlets.map Inlet.name)
    (id : String) :
    Relates (scaledWave speed scale i id) (scaledWave speed scale i' id)
      (Outputs.Like rate ["signal"]) := by
  rw [scaledWave, scaledWave, h.choice]
  refine .bind (h.keyed hs id) fun hz hz' hs => ?_
  refine .bind (h.keyed hc id) fun scale scale' hc => ?_
  refine .bind (.lift (.oscillator _ (.expr hs))) fun wave wave' hw => ?_
  exact ofExpr_relates (.lift (.binary _ (.expr hw) (.expr hc)))

theorem oscillator_interchanges : Interchanges oscillator :=
  fun _ _ _ id _ _ h _ =>
    scaledWave_relates h (by simp [oscillator]) (by simp [oscillator]) id

theorem lfo_interchanges : Interchanges lfo :=
  fun _ _ _ id _ _ h _ => scaledWave_relates h (by simp [lfo]) (by simp [lfo]) id

theorem coloured_relates {white white' : Expr} (h : Alike rate white white') (c : NoiseColor) :
    Build.Relates (coloured white c) (coloured white' c) (Alike rate) := by
  cases c with
  | white => exact .pure h
  | pink => exact .filter _ (.literal _) (.literal _) (.expr h)

theorem noise_interchanges : Interchanges noise := by
  intro rate i i' id _ _ h _
  rw [noise]
  simp only [h.choice]
  have hwhite : Build.Relates (Build.noise (id ++ ":noise")) (Build.noise (id ++ ":noise"))
      (Alike rate) := .node (fun _ => rfl) .nil
  refine .bind (.lift hwhite) fun white white' hw => ?_
  refine .bind (.lift (coloured_relates hw _)) fun source source' hs => ?_
  refine .bind (h.keyed (by simp [noise]) id) fun gain gain' hg => ?_
  exact ofExpr_relates (.lift (.binary _ (.expr hs) (.expr hg)))

theorem gain_interchanges : Interchanges gain := by
  intro rate i i' id _ _ h _
  refine withInput_relates h (by simp [gain]) (by simp [gain, NodeInfo.audioInlets]) id
    fun input => ?_
  refine .bind (h.keyed (by simp [gain]) id) fun gain gain' hg => ?_
  exact .lift (.binary _ (.expr (alike_refl _ _)) (.expr hg))

theorem filter_interchanges : Interchanges filter := by
  intro rate i i' id _ _ h _
  refine withInput_relates h (by simp [filter]) (by simp [filter, NodeInfo.audioInlets]) id
    fun input => ?_
  rw [h.choice]
  refine .bind (h.keyed (by simp [filter]) id) fun cutoff cutoff' hc => ?_
  refine .bind (h.keyed (by simp [filter]) id) fun q q' hq => ?_
  exact .lift (.filter _ (.expr hc) (.expr hq) (.expr (alike_refl _ _)))

theorem crossfade_relates {a a' b b' balance balance' : Expr} (ha : Alike rate a a')
    (hb : Alike rate b b') (hc : Alike rate balance balance') :
    Build.Relates (crossfade a b balance) (crossfade a' b' balance') (Alike rate) := by
  refine .bind (.binary _ (.literal _) (.expr hc)) fun rest rest' hr => ?_
  refine .bind (.binary _ (.expr ha) (.expr hr)) fun a a' ha => ?_
  refine .bind (.binary _ (.expr hb) (.expr hc)) fun b b' hb => ?_
  exact .binary _ (.expr ha) (.expr hb)

theorem delay_interchanges : Interchanges delay := by
  intro rate i i' id _ _ h _
  refine withInput_relates h (by simp [delay]) (by simp [delay, NodeInfo.audioInlets]) id
    fun input => ?_
  have hinput := alike_refl rate input
  refine .bind (h.keyed (by simp [delay]) id) fun time time' ht => ?_
  refine .bind (h.keyed (by simp [delay]) id) fun feedback feedback' hf => ?_
  refine .bind (h.keyed (by simp [delay]) id) fun mix mix' hm => ?_
  refine .bind (.lift (.delay _ (.expr ht) (.expr hf) (.expr hinput))) fun wet wet' hw => ?_
  exact .lift (crossfade_relates hinput hw hm)

theorem mixSide_relates (rate : Float32) (name id : String) (s : Signal) :
    Build.Relates (mixSide name id s) (mixSide name id s) (Alike rate) := by
  cases s with
  | literal v => exact .keyedConst rate _ _ _
  | expr e => exact .pure (alike_refl rate e)

theorem mix_interchanges : Interchanges mix := by
  intro rate i i' id _ _ h _
  refine .bind (h.get (by simp [mix])) fun a a' ha => ?_
  refine .bind (h.get (by simp [mix])) fun b b' hb => ?_
  obtain rfl := ha.2.2.2 (by simp [mix, NodeInfo.audioInlets])
  obtain rfl := hb.2.2.2 (by simp [mix, NodeInfo.audioInlets])
  split
  · exact ofExpr_relates (.lift (.keyedConst rate _ _ _))
  · refine .bind (.lift (mixSide_relates rate "a" id a)) fun a a' ha => ?_
    refine .bind (.lift (mixSide_relates rate "b" id b)) fun b b' hb => ?_
    refine .bind (h.keyed (by simp [mix]) id) fun balance balance' hc => ?_
    exact ofExpr_relates (.lift (crossfade_relates ha hb hc))

/-- A note is converted at once as it is at every frame, up to the product with 440. -/
theorem frequencyOf_relates (id : String) {s s' : Signal} (h : Signal.Like rate s s') :
    Build.Relates (frequencyOf id s) (frequencyOf id s') (Akin rate Single.Same) := by
  cases h with
  | literal note => exact fun _ _ => .alike ((steady_const _ _ _).alike (steady_const _ _ _))
  | expr h =>
    refine .bind (.binary _ (.expr h) (.literal _)) fun above above' ha => ?_
    refine .bind (.binary _ (.expr ha) (.literal _)) fun octaves octaves' ho => ?_
    refine .bind (.binary _ (.literal _) (.expr ho)) fun ratio ratio' hr => ?_
    exact fun l l' => .alike (Build.Relates.binary .mul (.literal 440.0) (.expr hr) l l')
  | connected h =>
    next note e =>
    have hfrequency := Build.Yields.keyedConst rate (id ++ ":freq") (midiToFreq note)
    have hproduct : Build.Yields (frequencyOf id (.expr e)) (Expr.Steady rate
        (mulAnnihilating 440.0 (Single.pow 2.0 ((note - 69.0) / 12.0)))) := by
      refine .bind (.binary .sub h rfl) fun above ha => ?_
      refine .bind (.binary .div ha rfl) fun octaves ho => ?_
      refine .bind (.binary .pow rfl ho) fun ratio hr => ?_
      exact .binary .mul rfl hr
    refine hfrequency.relates hproduct fun x x' hx hx' => .steady hx hx' ?_
    apply Single.same_mulAnnihilating
    intro hzero
    rw [Bool.or_eq_true] at hzero
    rcases Single.zero_cases (hzero.resolve_left (by decide)) with heq | heq
    · rw [heq]
      decide
    · rw [heq]
      decide

theorem noteToFreq_interchanges : Interchanges noteToFreq := by
  intro rate i i' id _ _ h _
  refine .bind (h.get (by simp [noteToFreq])) fun s s' hs => ?_
  refine .bind (.lift (frequencyOf_relates id hs.2.2.1)) fun x x' hx => ?_
  exact .pure ((Outputs.like_nil _ _).insert "frequency" hx)

/-- An operation as it is left to the renderer. -/
def rendered (f : BinaryOp) (id : String) (a b : Signal) : NodeBuild Expr := do
  let a ← Build.liftKeyed (id ++ ":a") a
  let b ← Build.liftKeyed (id ++ ":b") b
  Build.binary f (.expr a) (.expr b)

theorem rendered_relates (f : BinaryOp) (id : String) {a a' b b' : Signal}
    (ha : Signal.Like rate a a') (hb : Signal.Like rate b b') :
    Relates (rendered f id a b) (rendered f id a' b') (Akin rate Single.Same) := by
  refine .bind (.lift (.liftKeyed _ ha)) fun a a' ha => ?_
  refine .bind (.lift (.liftKeyed _ hb)) fun b b' hb => ?_
  exact .lift fun l l' => .alike (Build.Relates.binary f (.expr ha) (.expr hb) l l')

/-- An operation on numbers that is carried out at once. -/
theorem folded_relates {f : BinaryOp} (key id : String) {a b : Signal} {v w x : Float32}
    (ha : a.Steady rate v) (hb : b.Steady rate w) (hx : Single.Same x (f.apply v w)) :
    Relates (ExceptT.lift (Build.keyedConst key x)) (rendered f id a b)
      (Akin rate Single.Same) := by
  have hrendered : NodeBuild.Yields (rendered f id a b) (Expr.Steady rate (f.apply v w)) := by
    refine .bind (.lift (.liftKeyed _ ha)) fun a ha => ?_
    refine .bind (.lift (.liftKeyed _ hb)) fun b hb => ?_
    exact .lift (.binary f ha hb)
  exact NodeBuild.Yields.relates (.lift (.keyedConst rate key x)) hrendered fun _ _ he he' =>
    .steady he he' hx

theorem operation_relates (h : Inputs.Like rate info i i')
    (ha : "a" ∈ info.inlets.map Inlet.name) (hb : "b" ∈ info.inlets.map Inlet.name) (f : BinaryOp)
    {fold : Float32 → Float32 → Float32}
    (hfold : ∀ a b, i.signal "a" = .ok (.literal a) → i.signal "b" = .ok (.literal b) →
      Single.Same (fold a b) (f.apply a b)) (id : String) :
    Relates (operation f fold i id) (operation f fold i' id) (Akin rate Single.Same) := by
  refine .bind (h.get ha) fun a a' ha => ?_
  refine .bind (h.get hb) fun b b' hb => ?_
  obtain ⟨hia, -, ha, -⟩ := ha
  obtain ⟨hib, -, hb, -⟩ := hb
  -- the operation is folded on the one side where both operands are numbers there
  cases ha with
  | expr ha => exact rendered_relates f id (.expr ha) hb
  | literal v =>
    cases hb with
    | expr hb => exact rendered_relates f id (.literal v) (.expr hb)
    | literal w => exact .lift fun l l' => .alike (Build.Relates.keyedConst rate _ _ _ l l')
    | connected hb => exact folded_relates _ id (a := .literal v) rfl hb (hfold _ _ hia hib)
  | connected ha =>
    cases hb with
    | expr hb => exact rendered_relates f id (.connected ha) (.expr hb)
    | literal w => exact folded_relates _ id (b := .literal w) ha rfl (hfold _ _ hia hib)
    | connected hb => exact folded_relates _ id ha hb (hfold _ _ hia hib)

/-- The plain product is the only operation that is not folded as it is rendered. -/
theorem same_fold (f : BinaryOp) {a b : Float32} (h : (f.fold a b).isFinite = true) :
    Single.Same (f.fold a b) (f.apply a b) := by
  cases f with
  | mul => exact Single.same_mulAnnihilating fun _ => h
  | _ => exact Single.same_refl _

theorem math_interchanges : Interchanges math := by
  intro rate i i' id _ _ h hfinite
  rw [math]
  simp only [h.choice]
  have hfold := hfinite rfl
  simp only [FoldsFinite, h.choice] at hfold
  refine .bind (operation_relates h (by simp [math]) (by simp [math]) _ (fun a b ha hb => ?_) id)
    fun x x' hx => ofExpr_akin (.lift fun l l' => hx.meter id l l')
  rw [finiteOrZero, if_pos (hfold a b ha hb)]
  exact same_fold _ (hfold a b ha hb)

theorem compare_ne_mul (i : Inputs) :
    i.choice "operation" BinaryOp.ofCompareName? .eq ≠ .mul := by
  rw [Inputs.choice]
  cases i.text? "operation" with
  | none => decide
  | some name =>
    rw [Option.bind_some, BinaryOp.ofCompareName?.eq_def]
    split <;> decide

theorem compare_interchanges : Interchanges compare := by
  intro rate i i' id _ _ h _
  have hne := compare_ne_mul i'
  rw [compare]
  simp only [h.choice]
  refine ofExpr_akin (operation_relates h (by simp [compare]) (by simp [compare]) _
    (fun a b _ _ => ?_) id)
  generalize i'.choice "operation" BinaryOp.ofCompareName? .eq = f at hne
  cases f with
  | mul => exact absurd rfl hne
  | _ => exact Single.same_refl _

theorem scope_interchanges : Interchanges scope := fun rate _ _ id _ _ h _ =>
  withInput_relates h (by simp [scope, inputInlet]) (by simp [scope, NodeInfo.audioInlets]) id
    fun input => .lift (.tap _ (.expr (alike_refl rate input)))

theorem spectrum_interchanges : Interchanges spectrum := fun rate _ _ id _ _ h _ =>
  withInput_relates h (by simp [spectrum, inputInlet]) (by simp [spectrum, NodeInfo.audioInlets])
    id fun input => .lift (.tap _ (.expr (alike_refl rate input)))

theorem meter_interchanges : Interchanges meter := fun rate _ _ id _ _ h _ =>
  withInput_relates h (by simp [meter, inputInlet]) (by simp [meter, NodeInfo.audioInlets]) id
    fun input => .lift (.tap _ (.expr (alike_refl rate input)))

theorem probe_interchanges : Interchanges probe := by
  intro rate i i' id _ _ h _
  refine withInput_relates h (by simp [probe, inputInlet]) (by simp [probe, NodeInfo.audioInlets])
    id fun input => ?_
  refine .bind (.lift (.tap _ (.expr (alike_refl rate input)))) fun metered metered' hm => ?_
  exact .lift (.tap _ (.expr hm))

theorem rightChannel_relates (id : String) {left left' : Expr} (h : Alike rate left left')
    (s : Signal) :
    Build.Relates (rightChannel id left s) (rightChannel id left' s) (Alike rate) := by
  cases s with
  | literal v => exact .pure h
  | expr right => exact .tap _ (.expr (alike_refl rate right))

theorem muteGain_relates (id : String) {s s' : Signal} (h : Signal.Like rate s s') :
    Build.Relates (muteGain id s) (muteGain id s') (Alike rate) := by
  cases h with
  | literal v => exact .keyedConst rate _ _ _
  | expr h => exact .binary .eq (.expr h) (.literal 0.0)
  | connected h =>
    next v e =>
    have hgain := Build.Yields.keyedConst rate (id ++ ":mute")
      (if v != 0.0 then 0.0 else 1.0)
    have hequal : Build.Yields (Build.binary .eq (.expr e) (.literal 0.0))
        (Expr.Steady rate (truth (v == 0.0))) := .binary .eq h rfl
    refine hgain.relates hequal fun x x' hx hx' => ?_
    have hsame : (if v != 0.0 then 0.0 else 1.0) = truth (v == 0.0) := by
      rw [bne, truth]
      cases v == 0.0 <;> rfl
    exact hx.alike (hsame ▸ hx')

theorem output_interchanges : Interchanges output := by
  intro rate i i' id _ _ h _
  refine .bind (h.keyed (by simp [output]) id) fun left left' hl => ?_
  refine .bind (.lift (.tap _ (.expr hl))) fun left left' hl => ?_
  refine .bind (h.get (by simp [output])) fun right right' hr => ?_
  obtain rfl := hr.2.2.2 (by simp [output, NodeInfo.audioInlets])
  refine .bind (.lift (rightChannel_relates id hl right)) fun right right' hr => ?_
  refine .bind (h.get (by simp [output])) fun muted muted' hm => ?_
  refine .bind (.lift (muteGain_relates id hm.2.2.1)) fun gain gain' hg => ?_
  refine .bind (.lift (.binary _ (.expr hl) (.expr hg))) fun left left' hl => ?_
  refine .bind (.lift (.binary _ (.expr hr) (.expr hg))) fun right right' hr => ?_
  have hlike := ((Outputs.like_nil Table.empty Table.empty).insert "left" (.alike hl)).insert
    "right" (.alike hr)
  exact .pure fun name hname => hlike name (by simpa [output, or_comm] using hname)

end NodeType

theorem builtin_interchanges : ∀ t ∈ Registry.builtin.types, t.Interchanges := by
  simp only [Registry.builtin, NodeType.builtins, List.forall_mem_cons]
  exact ⟨NodeType.oscillator_interchanges, NodeType.lfo_interchanges,
    NodeType.noise_interchanges, NodeType.number_interchanges, NodeType.bang_interchanges,
    NodeType.keyboard_interchanges, NodeType.metro_interchanges,
    NodeType.sequencer_interchanges, NodeType.envelope_interchanges,
    NodeType.gain_interchanges, NodeType.filter_interchanges, NodeType.delay_interchanges,
    NodeType.mix_interchanges, NodeType.noteToFreq_interchanges, NodeType.math_interchanges,
    NodeType.compare_interchanges, NodeType.scope_interchanges,
    NodeType.spectrum_interchanges, NodeType.meter_interchanges,
    NodeType.probe_interchanges, NodeType.output_interchanges, by simp⟩

end Patchbay
