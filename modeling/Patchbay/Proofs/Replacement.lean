import Mathlib
import Patchbay.Preset.Check
import Patchbay.Proofs.Reading

/-!
# Flagged and replaced entries

The compiler replaces entries of node data that it cannot read by their defaults. A check flags
these entries and no others, but for one name of a waveform, which it does not know.
-/

set_option autoImplicit false

namespace Patchbay

/-- An entry of node data that cannot be read. A missing entry is not one. -/
def Node.Misread {α : Type} (n : Node) (name : String) (read : Param → Option α) : Prop :=
  ∃ v, n.data.find? name = some v ∧ read v = none

/-- The node gives the same outlets with a value stored under a name. -/
def Node.StandsFor (n : Node) (name : String) (v : Param) : Prop :=
  ∀ edges seen copy, Compile.compileNode .builtin edges seen (n.set name v) copy =
    Compile.compileNode .builtin edges seen n copy

/-! ## One entry set to its default -/

theorem builtin_inlet_defaults : ∀ t ∈ Registry.builtin.types, ∀ i ∈ t.info.inlets,
    (Param.ofSingle i.default).number? = some i.default := by
  decide

theorem builtin_setting_names : ∀ t ∈ Registry.builtin.types,
    (t.info.settings.map Setting.name).Nodup ∧ "steps" ∉ t.info.settings.map Setting.name := by
  decide

def NodeInfo.numberDefaults (info : NodeInfo) : List Float32 :=
  info.settings.filterMap fun s => match s.kind with
    | .number default => some default
    | .choice _ _ => none

theorem builtin_number_defaults : ∀ t ∈ Registry.builtin.types, ∀ x ∈ t.info.numberDefaults,
    (Param.ofSingle x).number? = some x := by
  decide

namespace NodeType

variable {t : NodeType} {s : Setting}

/-- A value stored for one setting changes nothing that is read if it reads as what was read. -/
theorem readsAlike_insert (ht : t ∈ Registry.builtin.types) (hs : s ∈ t.info.settings)
    {data : NodeData} {v : Param}
    (hchoice : ∀ c ∈ Choice.builtins, c.type = t → c.setting = s →
      (c.reads v).getD c.fallback = c.value data)
    (hnumber : ∀ default, s.kind = .number default →
      v.number?.getD default = ((data.find? s.name).bind Param.number?).getD default) :
    t.ReadsAlike (data.insert s.name v) data := by
  obtain ⟨distinct, hsteps⟩ := builtin_setting_names t ht
  have hname {s' : Setting} (hs' : s' ∈ t.info.settings) (h : s.name = s'.name) : s' = s :=
    List.inj_on_of_nodup_map distinct hs' hs h.symm
  constructor
  case choices =>
    rintro c hc rfl
    have hdeclared := (Choice.builtins_declared c hc).2.1
    by_cases h : s.name = c.name
    · rw [Choice.value, Table.find?_insert, if_pos h, Option.bind_some]
      exact hchoice c hc rfl (hname hdeclared h)
    · rw [Choice.value, Choice.value, Table.find?_insert, if_neg h]
  case numbers =>
    intro s' hs' default hkind
    by_cases h : s.name = s'.name
    · obtain rfl := hname hs' h
      rw [Table.find?_insert, if_pos rfl, Option.bind_some]
      exact hnumber default hkind
    · rw [Table.find?_insert, if_neg h]
  case steps =>
    rw [Table.find?_insert, if_neg]
    rintro h
    exact hsteps (h ▸ List.mem_map_of_mem hs)

end NodeType

namespace Node.Misread

theorem bind_eq_none {α : Type} {n : Node} {name : String} {read : Param → Option α}
    (h : n.Misread name read) : (n.data.find? name).bind read = none := by
  obtain ⟨v, hv, hread⟩ := h
  rw [hv, Option.bind_some, hread]

variable {n : Node} {t : NodeType} (hn : Registry.builtin.find? n.type = some t)

include hn

theorem inlet {i : Inlet} (hi : i ∈ t.info.inlets) (h : n.Misread i.name Param.number?) :
    n.StandsFor i.name (.ofSingle i.default) := by
  have ht := List.mem_of_find?_eq_some hn
  intro edges seen copy
  refine Compile.compileNode_data hn (n.set _ _) rfl rfl (fun j hj => ?_) ?_ edges seen copy
  · by_cases hname : j.name = i.name
    · obtain rfl := List.inj_on_of_nodup_map (builtin_inlets t ht) hj hi hname
      rw [Spare.literalOf_set (builtin_inlet_defaults t ht j hj), Resolve.literalOf,
        h.bind_eq_none, Option.getD_none]
    · exact Spare.literalOf_set_ne hname
  · rw [Resolve.settings_set_inlet hi]
    exact t.readsAlike_refl _

/-- The entry of a setting may be replaced by what reads as it does. -/
theorem of_setting {s : Setting} (hs : s ∈ t.info.settings) {v : Param}
    (hchoice : ∀ c ∈ Choice.builtins, c.type = t → c.setting = s →
      (c.reads v).getD c.fallback = ((n.data.find? s.name).bind c.reads).getD c.fallback)
    (hnumber : ∀ default, s.kind = .number default →
      v.number?.getD default = ((n.data.find? s.name).bind Param.number?).getD default) :
    n.StandsFor s.name v := by
  have ht := List.mem_of_find?_eq_some hn
  have hnone := builtin_settings t ht s hs
  intro edges seen copy
  refine Compile.compileNode_data hn (n.set _ _) rfl rfl (fun j hj => ?_) ?_ edges seen copy
  · refine Spare.literalOf_set_ne fun hname => ?_
    rw [NodeInfo.inlet?, Option.isNone_iff_eq_none, List.find?_eq_none] at hnone
    exact hnone j hj (by simpa using hname)
  · rw [Resolve.settings_set hnone]
    refine NodeType.readsAlike_insert ht hs (fun c hc hct hcs => ?_) fun default hkind => ?_
    · have hname : c.name = s.name := congrArg Setting.name hcs
      rw [Choice.value, hname, Resolve.settings_find? hnone]
      exact hchoice c hc hct hcs
    · rw [Resolve.settings_find? hnone]
      exact hnumber default hkind

theorem number {s : Setting} (hs : s ∈ t.info.settings) {default : Float32}
    (hkind : s.kind = .number default) (h : n.Misread s.name Param.number?) :
    n.StandsFor s.name s.defaultValue := by
  have ht := List.mem_of_find?_eq_some hn
  have hdefault : default ∈ t.info.numberDefaults :=
    List.mem_filterMap.2 ⟨s, hs, by rw [hkind]⟩
  refine of_setting hn hs (fun c _ _ hc => ?_) fun default' hkind' => ?_
  · rw [← hc] at hkind
    cases hkind
  · obtain rfl : default' = default := by
      rw [hkind] at hkind'
      cases hkind'
      rfl
    rw [h.bind_eq_none, Setting.defaultValue, hkind, builtin_number_defaults t ht _ hdefault]
    rfl

theorem choice {c : Choice} (hc : c ∈ Choice.builtins) (ht : c.type = t)
    (h : n.Misread c.name c.reads) : n.StandsFor c.name (.text c.default) := by
  subst ht
  obtain ⟨-, hs, hdefault⟩ := Choice.builtins_declared c hc
  refine of_setting hn hs (fun c' hc' htype _ => ?_) fun default hkind => by cases hkind
  obtain rfl : c' = c := List.inj_on_of_nodup_map Choice.builtins_types hc' hc
    (congrArg (fun t : NodeType => t.info.id) htype)
  show ((c'.parse c'.default).getD _) = _
  rw [hdefault, show c'.setting.name = c'.name from rfl, h.bind_eq_none]
  rfl

end Node.Misread

/-! ## What a check flags -/

namespace Check

variable {registry : Registry} {n : Node} {t : NodeType}

theorem mem_inlet {i : Inlet} {p : Problem} :
    p ∈ inlet n i ↔ p = .notANumber n.id i.name ∧ n.Misread i.name Param.number? := by
  rw [inlet, Node.Misread]
  cases n.data.find? i.name with
  | none => simp
  | some v => cases v <;> simp [Param.isNumeric, Param.number?]

theorem mem_setting_number {s : Setting} {default : Float32} (hs : s.kind = .number default)
    {p : Problem} :
    p ∈ setting n s ↔ p = .notANumber n.id s.name ∧ n.Misread s.name Param.number? := by
  rw [setting, Node.Misread, hs]
  cases n.data.find? s.name with
  | none => simp
  | some v => cases v <;> simp [Param.isNumeric, Param.number?]

theorem mem_setting_choice {s : Setting} {options : List String} {default : String}
    (hs : s.kind = .choice options default) {p : Problem} :
    p ∈ setting n s ↔ ∃ v, n.data.find? s.name = some v ∧ (∀ x ∈ options, v.text? ≠ some x) ∧
      p = .invalidChoice n.id s.name (shownValue v) (", ".intercalate options) := by
  rw [setting, hs]
  cases n.data.find? s.name with
  | none => simp
  | some v =>
    have hrefused : (∀ x ∈ options, v.text? ≠ some x) ↔ v.text?.any options.contains = false := by
      cases v.text? with
      | none => simp
      | some x => simpa using ⟨fun h hx => h x hx rfl, fun h y hy heq => h (heq ▸ hy)⟩
    simp only [Option.some.injEq, exists_eq_left', hrefused]
    cases v.text?.any options.contains <;> simp

theorem mem_node (ht : registry.find? n.type = some t) {p : Problem} :
    p ∈ node registry n ↔
      (∃ i ∈ t.info.inlets, p ∈ inlet n i) ∨ ∃ s ∈ t.info.settings, p ∈ setting n s := by
  rw [node, ht, List.mem_append, List.mem_flatMap, List.mem_flatMap]

theorem misread_of_notANumber (ht : registry.find? n.type = some t) {id name : String}
    (h : .notANumber id name ∈ node registry n) : n.Misread name Param.number? := by
  rcases (mem_node ht).1 h with ⟨i, -, hi⟩ | ⟨s, -, hs⟩
  · obtain ⟨heq, hmisread⟩ := mem_inlet.1 hi
    injection heq with _ hname
    exact hname ▸ hmisread
  · cases hkind : s.kind with
    | number default =>
      obtain ⟨heq, hmisread⟩ := (mem_setting_number hkind).1 hs
      injection heq with _ hname
      exact hname ▸ hmisread
    | choice options default =>
      obtain ⟨v, -, -, heq⟩ := (mem_setting_choice hkind).1 hs
      cases heq

theorem notANumber_inlet_iff (ht : registry.find? n.type = some t) {i : Inlet}
    (hi : i ∈ t.info.inlets) :
    .notANumber n.id i.name ∈ node registry n ↔ n.Misread i.name Param.number? :=
  ⟨misread_of_notANumber ht, fun h => (mem_node ht).2 (.inl ⟨i, hi, mem_inlet.2 ⟨rfl, h⟩⟩)⟩

theorem notANumber_setting_iff (ht : registry.find? n.type = some t) {s : Setting}
    (hs : s ∈ t.info.settings) {default : Float32} (hkind : s.kind = .number default) :
    .notANumber n.id s.name ∈ node registry n ↔ n.Misread s.name Param.number? :=
  ⟨misread_of_notANumber ht, fun h =>
    (mem_node ht).2 (.inr ⟨s, hs, (mem_setting_number hkind).2 ⟨rfl, h⟩⟩)⟩

theorem invalidChoice_iff (ht : registry.find? n.type = some t)
    (distinct : (t.info.settings.map Setting.name).Nodup) {s : Setting}
    (hs : s ∈ t.info.settings) {options : List String} {default : String}
    (hkind : s.kind = .choice options default) :
    (∃ value shown, .invalidChoice n.id s.name value shown ∈ node registry n) ↔
      ∃ v, n.data.find? s.name = some v ∧ ∀ x ∈ options, v.text? ≠ some x := by
  constructor
  · rintro ⟨value, shown, h⟩
    rcases (mem_node ht).1 h with ⟨i, -, hi⟩ | ⟨s', hs', h⟩
    · cases (mem_inlet.1 hi).1
    · cases hkind' : s'.kind with
      | number default => cases ((mem_setting_number hkind').1 h).1
      | choice options' default' =>
        obtain ⟨v, hv, hrefused, heq⟩ := (mem_setting_choice hkind').1 h
        injection heq with _ hname
        obtain rfl : s' = s := List.inj_on_of_nodup_map distinct hs' hs hname.symm
        rw [hkind] at hkind'
        cases hkind'
        exact ⟨v, hv, hrefused⟩
  · rintro ⟨v, hv, hrefused⟩
    exact ⟨_, _, (mem_node ht).2
      (.inr ⟨s, hs, (mem_setting_choice hkind).2 ⟨v, hv, hrefused, rfl⟩⟩)⟩

end Check

/-- The numbers that cannot be read are flagged, and they are compiled as their defaults. Of the
choices those that cannot be read are flagged and compiled as their defaults; `saw` is flagged as
well, but it is read. -/
theorem check_flags {n : Node} {t : NodeType} (hn : Registry.builtin.find? n.type = some t) :
    (∀ i ∈ t.info.inlets,
      (.notANumber n.id i.name ∈ Check.node .builtin n ↔ n.Misread i.name Param.number?) ∧
      (n.Misread i.name Param.number? → n.StandsFor i.name (.ofSingle i.default)) ∧
      ∀ v x, n.data.find? i.name = some v → v.number? = some x →
        ∀ edges seen l, Resolve.connection? edges seen n i = none →
          (Resolve.inputs n t.info edges seen l).1.signal i.name = .ok (.literal x)) ∧
    (∀ s ∈ t.info.settings, ∀ default, s.kind = .number default →
      (.notANumber n.id s.name ∈ Check.node .builtin n ↔ n.Misread s.name Param.number?) ∧
      (n.Misread s.name Param.number? → n.StandsFor s.name s.defaultValue) ∧
      ∀ v x, n.data.find? s.name = some v → v.number? = some x →
        ∀ edges seen l, (Resolve.inputs n t.info edges seen l).1.numberOr s.name default = x) ∧
    (∀ s ∈ t.info.settings, ∀ options default, s.kind = .choice options default →
      ∃ c ∈ Choice.builtins, c.setting = s ∧
        (∀ data data', (∀ signals id, t.compile ⟨signals, data⟩ id =
          t.compile ⟨signals, data'⟩ id) ↔ c.value data = c.value data') ∧
        ((∃ value shown, .invalidChoice n.id s.name value shown ∈ Check.node .builtin n) ↔
          n.Misread s.name c.reads ∨
            s.name = "waveform" ∧ n.data.find? s.name = some (.text "saw")) ∧
        (n.Misread s.name c.reads → n.StandsFor s.name s.defaultValue) ∧
        ∀ v x, n.data.find? s.name = some v → c.reads v = some x →
          ∀ edges seen l,
            (Resolve.inputs n t.info edges seen l).1.choice s.name c.parse c.fallback = x) := by
  have ht := List.mem_of_find?_eq_some hn
  have hsettings (s : Setting) (hs : s ∈ t.info.settings) :
      (Resolve.settings n t.info).find? s.name = n.data.find? s.name :=
    Resolve.settings_find? (builtin_settings t ht s hs)
  refine ⟨fun i hi => ?inlet, fun s hs default hkind => ?number,
    fun s hs options default hkind => ?choice⟩
  case inlet =>
    refine ⟨Check.notANumber_inlet_iff hn hi, Node.Misread.inlet hn hi,
      fun v x hv hx edges seen l hnone => ?_⟩
    rw [Resolve.inputs_signal_of_mem (builtin_inlets t ht) hi (Resolve.inletSignal_of_none hnone),
      Resolve.literalOf, hv, Option.bind_some, hx, Option.getD_some]
  case number =>
    refine ⟨Check.notANumber_setting_iff hn hs hkind, Node.Misread.number hn hs hkind,
      fun v x hv hx edges seen l => ?_⟩
    show (((Resolve.settings n t.info).find? s.name).bind Param.number?).getD default = x
    rw [hsettings s hs, hv, Option.bind_some, hx, Option.getD_some]
  case choice =>
    obtain ⟨_, hnumber⟩ | ⟨c, hc, rfl, rfl⟩ := Choice.builtins_settings t ht s hs
    · rw [hkind] at hnumber
      cases hnumber
    refine ⟨c, hc, rfl, Choice.compile_eq_iff hc, ?flagged, Node.Misread.choice hn hc rfl,
      fun v x hv hx edges seen l => ?read⟩
    case flagged =>
      rw [Check.invalidChoice_iff hn (builtin_setting_names _ ht).1 hs rfl]
      simp only [Choice.refused_iff hc]
      constructor
      · rintro ⟨v, hv, hread | ⟨hname, rfl⟩⟩
        · exact .inl ⟨v, hv, hread⟩
        · exact .inr ⟨hname, hv⟩
      · rintro (⟨v, hv, hread⟩ | ⟨hname, hv⟩)
        · exact ⟨v, hv, .inl hread⟩
        · exact ⟨_, hv, .inr ⟨hname, rfl⟩⟩
    case read =>
      have hfound : (Resolve.settings n c.type.info).find? c.name = some v :=
        (hsettings _ hs).trans hv
      show Inputs.choice ⟨_, Resolve.settings n c.type.info⟩ c.name c.parse c.fallback = x
      rw [Choice.choice_eq, Choice.value, hfound, Option.bind_some, hx, Option.getD_some]

/-- A filter of an unknown kind, with a word for its resonance. -/
theorem check_flags_filter :
    let n : Node := ⟨"f", "filter", none,
      .ofList [("filterType", .text "notch"), ("q", .text "high")]⟩
    Registry.builtin.find? n.type = some NodeType.filter ∧
      .notANumber "f" "q" ∈ Check.node .builtin n ∧ n.StandsFor "q" (.ofSingle 1.0) ∧
      (∃ value shown, .invalidChoice "f" "filterType" value shown ∈ Check.node .builtin n) ∧
      n.StandsFor "filterType" (.text "lowpass") := by
  intro n
  obtain ⟨hinlets, -, hchoices⟩ := @check_flags n NodeType.filter rfl
  have hq : n.Misread "q" Param.number? := ⟨.text "high", rfl, rfl⟩
  obtain ⟨hflagged, hdefault, -⟩ := hinlets ⟨"q", 1.0⟩ (by simp [NodeType.filter])
  obtain ⟨c, hc, hs, -, hchoice, hstands, -⟩ := hchoices _ (List.mem_singleton.2 rfl) _ _ rfl
  have hunread : ∀ c ∈ Choice.builtins, c.name = "filterType" →
      (c.reads (.text "notch")).isNone := by
    decide
  have hmode : n.Misread "filterType" c.reads :=
    ⟨.text "notch", rfl, Option.isNone_iff_eq_none.1 (hunread c hc (congrArg Setting.name hs))⟩
  exact ⟨rfl, hflagged.2 hq, hdefault hq, hchoice.2 (.inl hmode), hstands hmode⟩

/-- The short name of a saw wave is flagged, and yet it is a saw wave that is compiled. -/
theorem check_flags_saw :
    let n : Node := ⟨"o", "oscillator", none, .ofList [("waveform", .text "saw")]⟩
    Check.node .builtin n =
        [.invalidChoice "o" "waveform" "saw" "sine, sawtooth, square, triangle"] ∧
      n.StandsFor "waveform" (.text "sawtooth") ∧ ¬ n.StandsFor "waveform" (.text "sine") := by
  refine ⟨by decide, fun edges seen copy => rfl, fun h => ?_⟩
  have hmnemonics := congrArg (fun o => o.outlets?.map fun o => o.operations.map Op.mnemonic)
    (h [] .empty 0)
  exact absurd hmnemonics (by decide)

end Patchbay
