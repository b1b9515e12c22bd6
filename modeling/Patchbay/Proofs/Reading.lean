import Mathlib
import Patchbay.Proofs.Agreement
import Patchbay.Proofs.Literal

/-!
# What a node type reads

A node type reads numbers and choices from the data of a node. A choice is a name that is parsed,
with a value for names that are not; the declared options are another list of names, for display and
for checks. A node compiles to the same outlets if what is read of its data stays the same.
-/

set_option autoImplicit false

namespace Patchbay

/-! ## Choices -/

/-- A choice as it is declared, and as the node type reads it. -/
structure Choice where
  type : NodeType
  name : String
  options : List String
  default : String
  Value : Type
  parse : String → Option Value
  fallback : Value

namespace Choice

def setting (c : Choice) : Setting := ⟨c.name, .choice c.options c.default⟩

def reads (c : Choice) (v : Param) : Option c.Value := v.text?.bind c.parse

/-- What the data of a node chooses. -/
def value (c : Choice) (data : NodeData) : c.Value :=
  ((data.find? c.name).bind c.reads).getD c.fallback

def waveform (type : NodeType) : Choice :=
  ⟨type, "waveform", ["sine", "sawtooth", "square", "triangle"], "sine", Waveform,
    Waveform.ofName?, .sine⟩

def colour : Choice :=
  ⟨.noise, "noiseType", ["white", "pink"], "white", NodeType.NoiseColor,
    NodeType.NoiseColor.ofName?, .white⟩

def filterMode : Choice :=
  ⟨.filter, "filterType", ["lowpass", "highpass", "bandpass"], "lowpass", FilterMode,
    FilterMode.ofName?, .lowpass⟩

def arithmetic : Choice :=
  ⟨.math, "operation", ["add", "subtract", "multiply", "divide", "modulo", "power", "min", "max"],
    "add", BinaryOp, BinaryOp.ofMathName?, .add⟩

def comparison : Choice :=
  ⟨.compare, "operation", ["eq", "le", "leq", "ge", "geq", "and", "or"], "eq", BinaryOp,
    BinaryOp.ofCompareName?, .eq⟩

def builtins : List Choice :=
  [waveform .oscillator, waveform .lfo, colour, filterMode, arithmetic, comparison]

/-- No type has two choices. -/
theorem builtins_types : (builtins.map (·.type.info.id)).Nodup := by decide

theorem builtins_declared : ∀ c ∈ builtins, c.type ∈ Registry.builtin.types ∧
    c.setting ∈ c.type.info.settings ∧ c.parse c.default = some c.fallback := by
  simp only [builtins, List.forall_mem_cons, List.not_mem_nil, false_imp_iff, implies_true,
    and_true]
  refine ⟨?_, ?_, ?_, ?_, ?_, ?_⟩ <;>
    exact ⟨by simp [Registry.builtin, NodeType.builtins, waveform, colour, filterMode, arithmetic,
      comparison], .head _, rfl⟩

/-- Every declared setting is a number or one of these choices. -/
theorem builtins_settings : ∀ t ∈ Registry.builtin.types, ∀ s ∈ t.info.settings,
    (∃ default, s.kind = .number default) ∨ ∃ c ∈ builtins, c.type = t ∧ c.setting = s := by
  intro t ht s hs
  fin_cases ht <;> fin_cases hs
  any_goals exact .inl ⟨_, rfl⟩
  · exact .inr ⟨waveform .oscillator, by simp [builtins], rfl, rfl⟩
  · exact .inr ⟨waveform .lfo, by simp [builtins], rfl, rfl⟩
  · exact .inr ⟨colour, by simp [builtins], rfl, rfl⟩
  · exact .inr ⟨filterMode, by simp [builtins], rfl, rfl⟩
  · exact .inr ⟨arithmetic, by simp [builtins], rfl, rfl⟩
  · exact .inr ⟨comparison, by simp [builtins], rfl, rfl⟩

/-- The options are the names that are parsed, but for one. -/
theorem mem_options_iff {c : Choice} (hc : c ∈ builtins) (name : String) :
    name ∈ c.options ↔ (c.parse name).isSome ∧ ¬ (c.name = "waveform" ∧ name = "saw") := by
  fin_cases hc
  · simp only [waveform, Waveform.ofName?]
    split <;> simp_all
  · simp only [waveform, Waveform.ofName?]
    split <;> simp_all
  · simp only [colour, NodeType.NoiseColor.ofName?]
    split <;> simp_all
  · simp only [filterMode, FilterMode.ofName?]
    split <;> simp_all
  · simp only [arithmetic, BinaryOp.ofMathName?]
    split <;> simp_all
  · simp only [comparison, BinaryOp.ofCompareName?]
    split <;> simp_all

/-- What is not among the options cannot be read, unless it is `saw`. -/
theorem refused_iff {c : Choice} (hc : c ∈ builtins) (v : Param) :
    (∀ x ∈ c.options, v.text? ≠ some x) ↔
      c.reads v = none ∨ c.name = "waveform" ∧ v = .text "saw" := by
  cases v with
  | text name =>
    have hrefused : (∀ x ∈ c.options, (Param.text name).text? ≠ some x) ↔ name ∉ c.options :=
      ⟨fun h hname => h name hname rfl, fun h x hx heq => h (Option.some.inj heq ▸ hx)⟩
    rw [hrefused, mem_options_iff hc, reads, Param.text?, Option.bind_some, Param.text.injEq,
      ← Option.not_isSome_iff_eq_none]
    tauto
  | _ => simp [Param.text?, reads]

/-! ## Choices and what is compiled -/

theorem choice_eq (c : Choice) (signals : Table Signal) (data : NodeData) :
    Inputs.choice ⟨signals, data⟩ c.name c.parse c.fallback = c.value data := by
  rw [Inputs.choice, Inputs.text?, value, Option.bind_assoc]
  rfl

theorem compile_congr {c : Choice} (hc : c ∈ builtins) {data data' : NodeData}
    (h : c.value data = c.value data') (signals : Table Signal) (id : String) :
    c.type.compile ⟨signals, data⟩ id = c.type.compile ⟨signals, data'⟩ id := by
  rw [← choice_eq c signals, ← choice_eq c signals] at h
  fin_cases hc
  · simp only [waveform] at h ⊢
    simp only [NodeType.oscillator, NodeType.scaledWave, h]
    rfl
  · simp only [waveform] at h ⊢
    simp only [NodeType.lfo, NodeType.scaledWave, h]
    rfl
  · simp only [colour] at h ⊢
    simp only [NodeType.noise, h]
    rfl
  · simp only [filterMode] at h ⊢
    simp only [NodeType.filter, h]
    rfl
  · simp only [arithmetic] at h ⊢
    simp only [NodeType.math, h]
    rfl
  · simp only [comparison] at h ⊢
    simp only [NodeType.compare, h]
    rfl

end Choice

/-- The operations of all that can be had from a node. -/
def Outputs.operations (o : Outputs) : List Op :=
  (o.entries.filterMap fun e => e.2.expr?).flatMap fun e => (Expr.parts e).map Expr.op

namespace Choice

def operations (b : NodeBuild Outputs) : Option (List Op) :=
  (Build.within .free b.run).toOption.map Outputs.operations

/-- The same noise for some inlets. -/
def noises (names : List String) : Table Signal :=
  .ofList (names.map fun name => (name, .expr (.node ⟨.free, 0⟩ .noise none [])))

/-- With its inlets connected a node shows by its operations what is chosen. -/
theorem operations_injective {c : Choice} (hc : c ∈ builtins) :
    ∃ (names : List String) (shown : c.Value → List Op), Function.Injective shown ∧ ∀ data,
      operations (c.type.compile ⟨noises names, data⟩ "") = some (shown (c.value data)) := by
  fin_cases hc
  · refine ⟨["frequency", "gain"], fun w => [.binary .mul, .oscillator w, .noise, .noise],
      fun w w' h => by cases h; rfl, fun data => ?_⟩
    rw [← choice_eq _ (noises ["frequency", "gain"])]
    rfl
  · refine ⟨["rate", "depth"], fun w => [.binary .mul, .oscillator w, .noise, .noise],
      fun w w' h => by cases h; rfl, fun data => ?_⟩
    rw [← choice_eq _ (noises ["rate", "depth"])]
    rfl
  · refine ⟨["gain"], fun k => (.binary .mul :: match k with
        | .white => [.noise]
        | .pink => [.filter .lowpass, .const 800.0, .const 0.5, .noise]) ++ [.noise],
      fun k k' h => ?_, fun data => ?_⟩
    · cases k <;> cases k' <;> first | rfl | cases h
    · have hvalue := choice_eq colour (noises ["gain"]) data
      change Inputs.choice _ "noiseType" NodeType.NoiseColor.ofName? .white = _ at hvalue
      show operations (NodeType.noise.compile _ _) = _
      simp only [NodeType.noise, hvalue]
      cases colour.value data <;> rfl
  · refine ⟨["input", "cutoff", "q"], fun m => [.filter m, .noise, .noise, .noise],
      fun m m' h => by cases h; rfl, fun data => ?_⟩
    rw [← choice_eq _ (noises ["input", "cutoff", "q"])]
    rfl
  · refine ⟨["a", "b"], fun f => [.tap (.meter ""), .binary f, .noise, .noise],
      fun f f' h => by cases h; rfl, fun data => ?_⟩
    rw [← choice_eq _ (noises ["a", "b"])]
    rfl
  · refine ⟨["a", "b"], fun f => [.binary f, .noise, .noise],
      fun f f' h => by cases h; rfl, fun data => ?_⟩
    rw [← choice_eq _ (noises ["a", "b"])]
    rfl

/-- What is chosen is all that a node takes from its data, and it takes all of it. -/
theorem compile_eq_iff {c : Choice} (hc : c ∈ builtins) (data data' : NodeData) :
    (∀ signals id, c.type.compile ⟨signals, data⟩ id = c.type.compile ⟨signals, data'⟩ id) ↔
      c.value data = c.value data' := by
  refine ⟨fun h => ?_, compile_congr hc⟩
  obtain ⟨names, shown, hinjective, hshown⟩ := operations_injective hc
  apply hinjective
  rw [← Option.some.injEq, ← hshown, ← hshown, h]

end Choice

/-! ## Nodes that are read alike -/

namespace NodeType

/-- Two tables of data in which a node type reads the same. A sequencer looks for a list of steps
beside what it declares. -/
structure ReadsAlike (t : NodeType) (data data' : NodeData) : Prop where
  choices : ∀ c ∈ Choice.builtins, c.type = t → c.value data = c.value data'
  numbers : ∀ s ∈ t.info.settings, ∀ default, s.kind = .number default →
    ((data.find? s.name).bind Param.number?).getD default =
      ((data'.find? s.name).bind Param.number?).getD default
  steps : data.find? "steps" = data'.find? "steps"

theorem readsAlike_refl (t : NodeType) (data : NodeData) : t.ReadsAlike data data :=
  ⟨fun _ _ _ => rfl, fun _ _ _ _ => rfl, rfl⟩

/-- A node type takes nothing from the data of a node but what it reads there. -/
def Heeds (t : NodeType) : Prop :=
  ∀ data data', t.ReadsAlike data data' → ∀ signals id,
    t.compile ⟨signals, data⟩ id = t.compile ⟨signals, data'⟩ id

theorem heeds_of_choice {c : Choice} (hc : c ∈ Choice.builtins) : c.type.Heeds :=
  fun _ _ h => Choice.compile_congr hc (h.choices c hc rfl)

theorem heeds_of_signals {t : NodeType} (h : ∀ signals data data' id,
    t.compile ⟨signals, data⟩ id = t.compile ⟨signals, data'⟩ id) : t.Heeds :=
  fun data data' _ signals id => h signals data data' id

theorem keyboard_heeds : keyboard.Heeds := by
  intro data data' h signals id
  have hnote := h.numbers ⟨"currentNote", .number 60.0⟩ (by simp [keyboard]) 60.0 rfl
  have hgate := h.numbers ⟨"currentGate", .number 0.0⟩ (by simp [keyboard]) 0.0 rfl
  simp only [keyboard, Inputs.numberOr, hnote, hgate]

theorem sequencer_heeds : sequencer.Heeds := by
  intro data data' h signals id
  have hvalues : stepValues ⟨signals, data⟩ = stepValues ⟨signals, data'⟩ := by
    have hsingle : ∀ s ∈ stepDefaults, Inputs.numberOr ⟨signals, data⟩ s.1 s.2 =
        Inputs.numberOr ⟨signals, data'⟩ s.1 s.2 := fun s hs =>
      h.numbers ⟨s.1, .number s.2⟩ (List.mem_map_of_mem hs) s.2 rfl
    rw [stepValues, stepValues, h.steps, List.map_congr_left hsingle]
  simp only [sequencer, hvalues]
  rfl

end NodeType

theorem builtin_heeds : ∀ t ∈ Registry.builtin.types, t.Heeds := by
  simp only [Registry.builtin, NodeType.builtins, List.forall_mem_cons]
  refine ⟨?oscillator, ?lfo, ?noise, ?_, ?_, NodeType.keyboard_heeds, ?_,
    NodeType.sequencer_heeds, ?_, ?_, ?filter, ?_, ?_, ?_, ?math, ?compare, ?_, ?_, ?_, ?_, ?_,
    by simp⟩
  case oscillator => exact @NodeType.heeds_of_choice (.waveform .oscillator) (.head _)
  case lfo => exact @NodeType.heeds_of_choice (.waveform .lfo) (by simp [Choice.builtins])
  case noise => exact @NodeType.heeds_of_choice .colour (by simp [Choice.builtins])
  case filter => exact @NodeType.heeds_of_choice .filterMode (by simp [Choice.builtins])
  case math => exact @NodeType.heeds_of_choice .arithmetic (by simp [Choice.builtins])
  case compare => exact @NodeType.heeds_of_choice .comparison (by simp [Choice.builtins])
  -- all others see their inlets only
  all_goals exact NodeType.heeds_of_signals fun _ _ _ _ => rfl

namespace Resolve

variable {n n' : Node} {edges : List Edge} {seen : OutletMap} {info : NodeInfo} {name : String}

theorem inletSignals_literal (hid : n'.id = n.id) {inlets : List Inlet}
    (h : ∀ i ∈ inlets, literalOf n' i = literalOf n i) :
    inletSignals edges seen n' inlets = inletSignals edges seen n inlets := by
  induction inlets with
  | nil => rfl
  | cons i inlets ih =>
    obtain ⟨hi, hrest⟩ := List.forall_mem_cons.1 h
    have hconnection : connection? edges seen n' i = connection? edges seen n i := by
      rw [connection?, connection?, hid]
    rw [inletSignals, inletSignals, inletSignal, inletSignal, hconnection, hi, ih hrest]

theorem settings_find? (h : (info.inlet? name).isNone) :
    (settings n info).find? name = n.data.find? name := by
  rw [settings, Table.find?_filter, if_pos h]

theorem settings_set (h : (info.inlet? name).isNone) (v : Param) :
    settings (n.set name v) info = (settings n info).insert name v := by
  refine Table.ext_find? fun key => ?_
  rw [settings, settings, Table.find?_insert, Table.find?_filter, Table.find?_filter, Node.set,
    Table.find?_insert]
  by_cases hkey : name = key
  · rw [if_pos hkey, if_pos hkey, if_pos (hkey ▸ h)]
  · rw [if_neg hkey, if_neg hkey]

end Resolve

namespace Compile

/-- A node gives the same outlets if its inlets and its settings are read the same. -/
theorem compileNode_data {t : NodeType} {n : Node} (hn : Registry.builtin.find? n.type = some t)
    (n' : Node) (hid : n'.id = n.id) (htype : n'.type = n.type)
    (hinlets : ∀ i ∈ t.info.inlets, Resolve.literalOf n' i = Resolve.literalOf n i)
    (hsettings : t.ReadsAlike (Resolve.settings n' t.info) (Resolve.settings n t.info))
    (edges : List Edge) (seen : OutletMap) (copy : Nat) :
    compileNode .builtin edges seen n' copy = compileNode .builtin edges seen n copy := by
  have hbuild : (do
      let inputs ← Resolve.inputs n' t.info edges seen
      (t.compile inputs n.id).run) = (do
      let inputs ← Resolve.inputs n t.info edges seen
      (t.compile inputs n.id).run) := by
    simp only [Resolve.inputs, Resolve.inletSignals_literal hid hinlets, bind_assoc, pure_bind,
      builtin_heeds t (List.mem_of_find?_eq_some hn) _ _ hsettings]
  simp only [compileNode, htype, hn, hid, hbuild]

end Compile

end Patchbay
