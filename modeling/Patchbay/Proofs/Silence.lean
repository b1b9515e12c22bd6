import Mathlib
import Patchbay.Proofs.Interchange
import Patchbay.Proofs.NodeData

/-!
# Numbers in the place of audio

An audio inlet without a connection is silent, whatever number stands in its place: a node type
asks whether it has been given a number there and never which. So the data stored under the names
of audio inlets is found nowhere in what is compiled of a patch.
-/

set_option autoImplicit false

namespace Patchbay

namespace Signal

/-- The same signal or, in the place of audio, any two numbers. -/
inductive SameAt (audio : List String) (name : String) : Signal → Signal → Prop
  | same (s : Signal) : SameAt audio name s s
  | unheard (h : name ∈ audio) (v v' : Float32) : SameAt audio name (.literal v) (.literal v')

theorem SameAt.eq_of_rel {audio : List String} {name : String} {o o' : Option Signal}
    (h : Option.Rel (SameAt audio name) o o') (hn : name ∉ audio) : o = o' := by
  cases h with
  | none => rfl
  | some h =>
    cases h with
    | same => rfl
    | unheard h => exact absurd h hn

/-- An inlet is given nothing on both sides, the same, or a number on both sides. -/
theorem SameAt.cases_of_rel {audio : List String} {name : String} {o o' : Option Signal}
    (h : Option.Rel (SameAt audio name) o o') :
    o = o' ∨ ∃ v v', o = some (.literal v) ∧ o' = some (.literal v') := by
  cases h with
  | none => exact .inl rfl
  | some h =>
    cases h with
    | same => exact .inl rfl
    | unheard _ v v' => exact .inr ⟨v, v', rfl, rfl⟩

end Signal

namespace Inputs

variable {i i' : Inputs} {audio : List String} {name : String}

/-- Two nodes see the same, the numbers in the place of audio apart. -/
structure SameBut (audio : List String) (i i' : Inputs) : Prop where
  params : i.params = i'.params
  signals : ∀ name, Option.Rel (Signal.SameAt audio name) (i.signals.find? name)
    (i'.signals.find? name)

theorem get_of_find? {s : Signal} (h : i.signals.find? name = some s) : i.get name = pure s := by
  funext l
  rw [get, signal, h]
  rfl

namespace SameBut

variable (h : SameBut audio i i')

include h

theorem choice {α : Type} (name : String) (parse : String → Option α) (default : α) :
    i.choice name parse default = i'.choice name parse default := by
  rw [Inputs.choice, Inputs.choice, text?, text?, h.params]

theorem get (hn : name ∉ audio) : i.get name = i'.get name := by
  funext l
  rw [Inputs.get, Inputs.get, signal, signal, Signal.SameAt.eq_of_rel (h.signals name) hn]

theorem keyed (hn : name ∉ audio) (id : String) : i.keyed name id = i'.keyed name id := by
  rw [Inputs.keyed, Inputs.keyed, h.get hn]

theorem get_cases (name : String) :
    i.get name = i'.get name ∨
      ∃ v v', i.get name = pure (.literal v) ∧ i'.get name = pure (.literal v') := by
  rcases Signal.SameAt.cases_of_rel (h.signals name) with heq | ⟨v, v', hv, hv'⟩
  · left
    funext l
    rw [Inputs.get, Inputs.get, signal, signal, heq]
  · exact .inr ⟨v, v', get_of_find? hv, get_of_find? hv'⟩

end SameBut

/-- Without audio inlets nothing is left in which two nodes could see different things. -/
theorem SameBut.eq (h : SameBut [] i i') : i = i' := by
  obtain ⟨signals, params⟩ := i
  obtain ⟨signals', params'⟩ := i'
  obtain ⟨hparams, hsignals⟩ := h
  have heq : signals = signals' :=
    Table.ext_find? fun name => Signal.SameAt.eq_of_rel (hsignals name) (by simp)
  cases heq
  cases hparams
  rfl

end Inputs

/-! ## Node types -/

namespace NodeType

/-- What is compiled of a node does not tell which numbers stand in the place of audio. -/
def Silent (t : NodeType) : Prop :=
  ∀ i i' id, Inputs.SameBut t.info.audioInlets i i' → t.compile i id = t.compile i' id

theorem silent_of_control {t : NodeType} (h : t.info.audioInlets = []) : t.Silent := by
  intro i i' id hi
  rw [h] at hi
  rw [hi.eq]

theorem withInput_same {audio : List String} {i i' : Inputs} (h : Inputs.SameBut audio i i')
    (id : String) {process process' : Expr → NodeBuild Expr}
    (hp : ∀ input, process input = process' input) :
    withInput i id process = withInput i' id process' := by
  obtain rfl : process = process' := funext hp
  rcases h.get_cases "input" with hget | ⟨v, v', hv, hv'⟩
  · rw [withInput, withInput, hget]
  · rw [withInput, withInput, hv, hv', pure_bind, pure_bind]

theorem gain_silent : Silent gain := by
  intro i i' id h
  apply withInput_same h
  intro input
  rw [h.keyed (by decide)]

theorem filter_silent : Silent filter := by
  intro i i' id h
  apply withInput_same h
  intro input
  rw [h.choice, h.keyed (by decide), h.keyed (by decide)]

theorem delay_silent : Silent delay := by
  intro i i' id h
  apply withInput_same h
  intro input
  rw [h.keyed (by decide), h.keyed (by decide), h.keyed (by decide)]

theorem scope_silent : Silent scope := fun _ _ id h => withInput_same h id fun _ => rfl

theorem spectrum_silent : Silent spectrum := fun _ _ id h => withInput_same h id fun _ => rfl

theorem meter_silent : Silent meter := fun _ _ id h => withInput_same h id fun _ => rfl

theorem probe_silent : Silent probe := fun _ _ id h => withInput_same h id fun _ => rfl

/-- What a mix makes of its two sides. -/
def mixed (i : Inputs) (id : String) (a b : Signal) : NodeBuild Outputs := do
  if a.isLiteral && b.isLiteral then return .ofExpr (← silence id)
  let a ← mixSide "a" id a
  let b ← mixSide "b" id b
  let balance ← i.keyed "balance" id
  return .ofExpr (← crossfade a b balance)

theorem mix_compile (i : Inputs) (id : String) :
    mix.compile i id = (do mixed i id (← i.get "a") (← i.get "b")) := rfl

theorem mix_silent : Silent mix := by
  intro i i' id h
  have hmixed : mixed i id = mixed i' id := by
    funext a b
    rw [mixed, mixed, h.keyed (by decide)]
  -- a side counts as a number, and never as which one
  have ha (v v' : Float32) (b : Signal) :
      mixed i' id (.literal v) b = mixed i' id (.literal v') b := rfl
  have hb (v v' : Float32) (a : Signal) :
      mixed i' id a (.literal v) = mixed i' id a (.literal v') := rfl
  rw [mix_compile, mix_compile, hmixed]
  rcases h.get_cases "b" with hget | ⟨v, v', hv, hv'⟩
  · rw [hget]
    rcases h.get_cases "a" with hget | ⟨v, v', hv, hv'⟩
    · rw [hget]
    · rw [hv, hv', pure_bind, pure_bind]
      simp only [ha v v']
  · simp only [hv, hv', pure_bind, hb v v']
    rcases h.get_cases "a" with hget | ⟨w, w', hw, hw'⟩
    · rw [hget]
    · rw [hw, hw', pure_bind, pure_bind, ha w w']

theorem output_silent : Silent output := by
  intro i i' id h
  have hright (left : Expr) (v v' : Float32) :
      rightChannel id left (.literal v) = rightChannel id left (.literal v') := rfl
  have hleft : i.keyed "left" id = i'.keyed "left" id := h.keyed (by decide) id
  have hmuted : i.get "muted" = i'.get "muted" := h.get (by decide)
  rw [output]
  simp only [hleft, hmuted]
  rcases h.get_cases "right" with hget | ⟨v, v', hv, hv'⟩
  · rw [hget]
  · simp only [hv, hv', pure_bind, hright _ v v']

end NodeType

theorem builtin_silent : ∀ t ∈ Registry.builtin.types, t.Silent := by
  simp only [Registry.builtin, NodeType.builtins, List.forall_mem_cons]
  refine ⟨?_, ?_, ?_, ?_, ?_, ?_, ?_, ?_, ?_, NodeType.gain_silent, NodeType.filter_silent,
    NodeType.delay_silent, NodeType.mix_silent, ?_, ?_, ?_, NodeType.scope_silent,
    NodeType.spectrum_silent, NodeType.meter_silent, NodeType.probe_silent,
    NodeType.output_silent, by simp⟩
  all_goals exact NodeType.silent_of_control (by decide)

theorem builtin_audioInlets : ∀ t ∈ Registry.builtin.types, ∀ name ∈ t.info.audioInlets,
    (t.info.inlet? name).isNone = false := by
  decide

/-! ## Patches -/

theorem Build.within_bind {α β : Type} (scope : Scope) (b : Build α) (f : α → Build β) :
    within scope (b >>= f) = (f (b ⟨scope, 0⟩).1 (b ⟨scope, 0⟩).2).1 := rfl

namespace Node

/-- The audio inlets of a node; one of an unknown type has none. -/
def audioInlets (n : Node) : List String :=
  match Registry.builtin.find? n.type with
  | some t => t.info.audioInlets
  | none => []

/-- Two nodes that differ at most in where they are shown and in the data under the names of their
audio inlets. -/
structure SameBut (n n' : Node) : Prop where
  id : n'.id = n.id
  type : n'.type = n.type
  data : ∀ key, key ∉ n.audioInlets → n'.data.find? key = n.data.find? key

theorem SameBut.refl (n : Node) : SameBut n n := ⟨rfl, rfl, fun _ _ => rfl⟩

theorem sameBut_set {n : Node} {name : String} (h : name ∈ n.audioInlets) (p : Param) :
    SameBut n (n.set name p) := by
  refine ⟨rfl, rfl, fun key hkey => ?_⟩
  have hne : name ≠ key := by
    rintro rfl
    exact hkey h
  rw [set, Table.find?_insert, if_neg hne]

/-- A node without what is never heard of it. -/
def hushed (n : Node) : Node :=
  { n with position := none, data := n.data.filter fun key => key ∉ n.audioInlets }

theorem hushed_find? (n : Node) (key : String) :
    n.hushed.data.find? key = if key ∈ n.audioInlets then none else n.data.find? key := by
  rw [hushed, Table.find?_filter]
  by_cases h : key ∈ n.audioInlets <;> simp [h]

theorem SameBut.hushed {n n' : Node} (h : SameBut n n') : n'.hushed = n.hushed := by
  have haudio : n'.audioInlets = n.audioInlets := by rw [audioInlets, audioInlets, h.type]
  have hdata : n'.hushed.data = n.hushed.data := by
    apply Table.ext_find?
    intro key
    rw [hushed_find?, hushed_find?, haudio]
    by_cases hkey : key ∈ n.audioInlets
    · rw [if_pos hkey, if_pos hkey]
    · rw [if_neg hkey, if_neg hkey, h.data key hkey]
  obtain ⟨id, type, position, data⟩ := n
  obtain ⟨id', type', position', data'⟩ := n'
  obtain ⟨hid, htype, -⟩ := h
  cases hid
  cases htype
  simp only [Node.hushed, Node.mk.injEq, true_and] at hdata ⊢
  exact hdata

end Node

namespace Resolve

variable {edges : List Edge} {outlets : OutletMap} {n : Node} {info : NodeInfo}

theorem literalOf_hushed {inlet : Inlet} (h : inlet.name ∉ n.audioInlets) :
    literalOf n.hushed inlet = literalOf n inlet := by
  rw [literalOf, literalOf, Node.hushed_find?, if_neg h]

/-- A connection is the same in both nodes, and a number is a number. -/
theorem inletSignal_hushed (inlet : Inlet) (l : Label) :
    (inletSignal edges outlets n.hushed inlet l).2 = (inletSignal edges outlets n inlet l).2 ∧
      Signal.SameAt n.audioInlets inlet.name (inletSignal edges outlets n.hushed inlet l).1
        (inletSignal edges outlets n inlet l).1 := by
  have hconn : connection? edges outlets n.hushed inlet = connection? edges outlets n inlet := rfl
  rw [inletSignal, inletSignal, hconn]
  cases connection? edges outlets n inlet with
  | some c => exact ⟨rfl, .same _⟩
  | none =>
    refine ⟨rfl, ?_⟩
    by_cases h : inlet.name ∈ n.audioInlets
    · exact .unheard h _ _
    · rw [literalOf_hushed h]
      exact .same _

theorem inletSignals_cons (inlet : Inlet) (inlets : List Inlet) (l : Label) :
    inletSignals edges outlets n (inlet :: inlets) l =
      let first := inletSignal edges outlets n inlet l
      let rest := inletSignals edges outlets n inlets first.2
      ((inlet.name, first.1) :: rest.1, rest.2) := rfl

/-- The same label comes out, so that whatever is built next is labelled alike. -/
theorem inletSignals_hushed (inlets : List Inlet) (l : Label) :
    (inletSignals edges outlets n.hushed inlets l).2 = (inletSignals edges outlets n inlets l).2 ∧
      List.Forall₂ (fun e e' => e.1 = e'.1 ∧ Signal.SameAt n.audioInlets e'.1 e.2 e'.2)
        (inletSignals edges outlets n.hushed inlets l).1
        (inletSignals edges outlets n inlets l).1 := by
  induction inlets generalizing l with
  | nil => exact ⟨rfl, .nil⟩
  | cons inlet inlets ih =>
    obtain ⟨hlabel, hsignal⟩ := @inletSignal_hushed edges outlets n inlet l
    obtain ⟨hlabels, hsignals⟩ := ih (inletSignal edges outlets n inlet l).2
    rw [inletSignals_cons, inletSignals_cons]
    simp only [hlabel]
    exact ⟨hlabels, .cons ⟨rfl, hsignal⟩ hsignals⟩

/-- By one name two lists find entries that belong together. -/
theorem rel_find?_ofList {R : String → Signal → Signal → Prop} {es es' : List (String × Signal)}
    (h : List.Forall₂ (fun e e' => e.1 = e'.1 ∧ R e'.1 e.2 e'.2) es es') (name : String) :
    Option.Rel (R name) ((Table.ofList es).find? name) ((Table.ofList es').find? name) := by
  rw [Table.find?_ofList, Table.find?_ofList]
  have hreverse := List.rel_reverse h
  generalize es.reverse = es at hreverse
  generalize es'.reverse = es' at hreverse
  induction hreverse with
  | nil => exact .none
  | @cons e e' es es' he _ ih =>
    obtain ⟨hname, hsignal⟩ := he
    rw [List.find?_cons, List.find?_cons, hname]
    by_cases hn : e'.1 = name
    · rw [hn] at hsignal
      simpa [hn] using hsignal
    · simpa [hn] using ih

theorem settings_hushed (h : ∀ name ∈ n.audioInlets, (info.inlet? name).isNone = false) :
    settings n.hushed info = settings n info := by
  apply Table.ext_find?
  intro key
  rw [settings, settings, Table.find?_filter, Table.find?_filter, Node.hushed_find?]
  by_cases hkey : key ∈ n.audioInlets
  · rw [h key hkey]
    rfl
  · rw [if_neg hkey]

theorem inputs_hushed (h : ∀ name ∈ n.audioInlets, (info.inlet? name).isNone = false) (l : Label) :
    (inputs n.hushed info edges outlets l).2 = (inputs n info edges outlets l).2 ∧
      Inputs.SameBut n.audioInlets (inputs n.hushed info edges outlets l).1
        (inputs n info edges outlets l).1 := by
  obtain ⟨hlabel, hsignals⟩ := @inletSignals_hushed edges outlets n info.inlets l
  refine ⟨hlabel, settings_hushed h, ?_⟩
  exact rel_find?_ofList hsignals

end Resolve

namespace Compile

/-- Neither the outlets of a node nor its error tell what number stands in the place of audio. -/
theorem compileNode_hushed (edges : List Edge) (outlets : OutletMap) (n : Node) (copy : Nat) :
    compileNode .builtin edges outlets n.hushed copy =
      compileNode .builtin edges outlets n copy := by
  have htype : n.hushed.type = n.type := rfl
  have hid : n.hushed.id = n.id := rfl
  rw [compileNode, compileNode, htype, hid]
  cases ht : Registry.builtin.find? n.type with
  | none => rfl
  | some t =>
    have hmem : t ∈ Registry.builtin.types := List.mem_of_find?_eq_some ht
    have haudio : n.audioInlets = t.info.audioInlets := by rw [Node.audioInlets, ht]
    have hinlets : ∀ name ∈ n.audioInlets, (t.info.inlet? name).isNone = false := by
      rw [haudio]
      exact builtin_audioInlets t hmem
    obtain ⟨hlabel, hinputs⟩ := @Resolve.inputs_hushed edges outlets n t.info hinlets
      ⟨.node n.id copy, 0⟩
    rw [haudio] at hinputs
    have hcompile := builtin_silent t hmem _ _ n.id hinputs
    have hresult : Build.within (.node n.id copy) (do
          let inputs ← Resolve.inputs n.hushed t.info edges outlets
          (t.compile inputs n.id).run) =
        Build.within (.node n.id copy) (do
          let inputs ← Resolve.inputs n t.info edges outlets
          (t.compile inputs n.id).run) := by
      rw [Build.within_bind, Build.within_bind, hcompile, hlabel]
    simp only [hresult]

theorem neutral_hushed (edges : List Edge) : Neutral .builtin edges Node.hushed :=
  ⟨fun _ => rfl, fun _ => rfl, fun outlets n copy => compileNode_hushed edges outlets n copy⟩

/-- What is stored under the names of audio inlets, in any of the nodes and of whatever shape, is
found neither in the target nor in the statistics. -/
theorem patch_silent (options : CompileOptions) (nodes nodes' : List Node) (edges : List Edge)
    (h : List.Forall₂ Node.SameBut nodes nodes') :
    patch .builtin options nodes' edges = patch .builtin options nodes edges := by
  have hhushed : nodes'.map Node.hushed = nodes.map Node.hushed := by
    induction h with
    | nil => rfl
    | cons hn _ ih => rw [List.map_cons, List.map_cons, hn.hushed, ih]
  calc patch .builtin options nodes' edges
      = patch .builtin options (nodes'.map Node.hushed) edges :=
        ((neutral_hushed edges).patch options nodes').symm
    _ = patch .builtin options (nodes.map Node.hushed) edges := by rw [hhushed]
    _ = patch .builtin options nodes edges := (neutral_hushed edges).patch options nodes

/-- A text for the input of a gain, and a number for the right channel. -/
theorem patch_silent_shapes :
    let source : Node := ⟨"n", "number", none, .empty⟩
    let level : Node := ⟨"g", "gain", none, .empty⟩
    let sink : Node := ⟨"out", "output", none, .empty⟩
    let edges : List Edge := [⟨"a", "n", "signal", "out", "left"⟩]
    let nodes := [source, level, sink]
    let nodes' := [source, level.set "input" (.text "loud"), sink.set "right" (.ofSingle 0.5)]
    List.Forall₂ Node.SameBut nodes nodes' ∧
      patch .builtin .full nodes' edges = patch .builtin .full nodes edges := by
  intro source level sink edges nodes nodes'
  have hlevel : "input" ∈ level.audioInlets := by decide
  have hsink : "right" ∈ sink.audioInlets := by decide
  have hsame : List.Forall₂ Node.SameBut nodes nodes' :=
    .cons (.refl _) (.cons (Node.sameBut_set hlevel _) (.cons (Node.sameBut_set hsink _) .nil))
  exact ⟨hsame, patch_silent .full nodes nodes' edges hsame⟩

end Compile

end Patchbay
