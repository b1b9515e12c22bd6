import Mathlib
import Patchbay.Proofs.NodeData
import Patchbay.Proofs.Replacement

/-!
# Defaults spelled out

A node may be stored with all that its type has defaults for, or with as little as its owner has
chosen. Both compile to the same, for what is written there for a missing entry reads as what would
have stood in for it. An entry that cannot be read stays as it is, and its default stands in for it
either way.
-/

set_option autoImplicit false

namespace Patchbay

namespace Table

variable {α : Type}

/-- The entries of one table put over those of another. -/
def overlay (d base : Table α) : Table α := d.entries.foldl (fun t e => t.insert e.1 e.2) base

theorem find?_overlay (d base : Table α) (key : String) :
    (d.overlay base).find? key = (d.find? key).or (base.find? key) := by
  have hown := find?_ofList d.entries key
  rw [ofList_entries] at hown
  rw [overlay, find?_foldl_insert, ← hown]

theorem find?_ofList_of_distinct {es : List (String × α)} (distinct : (es.map Prod.fst).Nodup)
    {key : String} {value : α} (h : (key, value) ∈ es) : (ofList es).find? key = some value := by
  obtain ⟨value', hmem, hfound⟩ := find?_ofList_of_mem (List.mem_map_of_mem h)
  cases List.inj_on_of_nodup_map distinct h hmem rfl
  exact hfound

end Table

/-! ## What a type has defaults for -/

/-- No two inlets or settings of a type have one name, and none of them is the list of steps. -/
theorem builtin_entry_names : ∀ t ∈ Registry.builtin.types,
    (t.info.inlets.map Inlet.name ++ t.info.settings.map Setting.name).Nodup ∧
      "steps" ∉ t.info.inlets.map Inlet.name ++ t.info.settings.map Setting.name := by
  decide

namespace NodeInfo

variable {info : NodeInfo}

theorem defaultData_keys (info : NodeInfo) :
    (info.inlets.map (fun inlet => (inlet.name, Param.ofSingle inlet.default)) ++
      info.settings.map fun s => (s.name, s.defaultValue)).map Prod.fst =
      info.inlets.map Inlet.name ++ info.settings.map Setting.name := by
  rw [List.map_append, List.map_map, List.map_map]
  rfl

theorem defaultData_inlet
    (distinct : (info.inlets.map Inlet.name ++ info.settings.map Setting.name).Nodup) {i : Inlet}
    (hi : i ∈ info.inlets) : info.defaultData.find? i.name = some (.ofSingle i.default) := by
  rw [← defaultData_keys] at distinct
  exact Table.find?_ofList_of_distinct distinct (List.mem_append_left _ (List.mem_map_of_mem hi))

theorem defaultData_setting
    (distinct : (info.inlets.map Inlet.name ++ info.settings.map Setting.name).Nodup) {s : Setting}
    (hs : s ∈ info.settings) : info.defaultData.find? s.name = some s.defaultValue := by
  rw [← defaultData_keys] at distinct
  exact Table.find?_ofList_of_distinct distinct (List.mem_append_right _ (List.mem_map_of_mem hs))

theorem defaultData_other {key : String}
    (h : key ∉ info.inlets.map Inlet.name ++ info.settings.map Setting.name) :
    info.defaultData.find? key = none := by
  rw [← defaultData_keys] at h
  cases hfound : info.defaultData.find? key with
  | none => rfl
  | some value =>
    have hmem := Table.mem_of_mem_ofList ((Table.mem_entries _ _ _).2 hfound)
    exact absurd (List.mem_map_of_mem hmem) h

end NodeInfo

/-! ## A node with its defaults -/

/-- An entry that reads as what stands in for a missing one may be missing. -/
theorem getD_or {α : Type} {read : Param → Option α} {v : Param} {x : α} (h : read v = some x)
    (o : Option Param) : ((o.or (some v)).bind read).getD x = (o.bind read).getD x := by
  cases o with
  | none => rw [Option.none_or, Option.bind_some, h, Option.bind_none, Option.getD_some,
      Option.getD_none]
  | some w => rfl

namespace Node

/-- The node with the defaults of its type under its own entries. -/
def spelledOut (n : Node) : Node :=
  match Registry.builtin.find? n.type with
  | some t => { n with data := n.data.overlay t.info.defaultData }
  | none => n

theorem spelledOut_id (n : Node) : n.spelledOut.id = n.id := by
  rw [spelledOut]
  split <;> rfl

theorem spelledOut_type (n : Node) : n.spelledOut.type = n.type := by
  rw [spelledOut]
  split <;> rfl

theorem spelledOut_find? {n : Node} {t : NodeType} (hn : Registry.builtin.find? n.type = some t)
    (key : String) : n.spelledOut.data.find? key =
      (n.data.find? key).or (t.info.defaultData.find? key) := by
  rw [spelledOut, hn]
  exact Table.find?_overlay _ _ key

theorem spelledOut_again (n : Node) : n.spelledOut.spelledOut = n.spelledOut := by
  cases hn : Registry.builtin.find? n.type with
  | none => simp only [spelledOut, hn]
  | some t =>
    have htwice : (n.data.overlay t.info.defaultData).overlay t.info.defaultData =
        n.data.overlay t.info.defaultData := by
      refine Table.ext_find? fun key => ?_
      rw [Table.find?_overlay, Table.find?_overlay, Option.or_assoc, Option.or_self]
    simp only [spelledOut, hn, htwice]

end Node

namespace Compile

theorem compileNode_spelledOut (edges : List Edge) (seen : OutletMap) (n : Node) (copy : Nat) :
    compileNode .builtin edges seen n.spelledOut copy =
      compileNode .builtin edges seen n copy := by
  cases hn : Registry.builtin.find? n.type with
  | none => rw [Node.spelledOut, hn]
  | some t =>
    have ht := List.mem_of_find?_eq_some hn
    obtain ⟨distinct, hsteps⟩ := builtin_entry_names t ht
    have hsettings (s : Setting) (hs : s ∈ t.info.settings) :
        (Resolve.settings n.spelledOut t.info).find? s.name =
          ((Resolve.settings n t.info).find? s.name).or (some s.defaultValue) := by
      have hnone := builtin_settings t ht s hs
      rw [Resolve.settings_find? hnone, Resolve.settings_find? hnone, Node.spelledOut_find? hn,
        NodeInfo.defaultData_setting distinct hs]
    refine compileNode_data hn _ n.spelledOut_id n.spelledOut_type ?_ ⟨?_, ?_, ?_⟩ edges seen copy
    · intro i hi
      rw [Resolve.literalOf, Resolve.literalOf, Node.spelledOut_find? hn,
        NodeInfo.defaultData_inlet distinct hi]
      exact getD_or (builtin_inlet_defaults t ht i hi) _
    · rintro c hc rfl
      obtain ⟨-, hs, hdefault⟩ := Choice.builtins_declared c hc
      have hfound := hsettings _ hs
      rw [Choice.value, Choice.value]
      rw [show c.setting.name = c.name from rfl] at hfound
      rw [hfound]
      exact getD_or hdefault _
    · intro s hs default hkind
      have hdefault : default ∈ t.info.numberDefaults :=
        List.mem_filterMap.2 ⟨s, hs, by rw [hkind]⟩
      rw [hsettings s hs, Setting.defaultValue, hkind]
      exact getD_or (builtin_number_defaults t ht _ hdefault) _
    · have hnone : (t.info.inlet? "steps").isNone := by
        rw [NodeInfo.inlet?, Option.isNone_iff_eq_none, List.find?_eq_none]
        intro i hi hname
        exact hsteps (List.mem_append_left _ (List.mem_map.2 ⟨i, hi, by simpa using hname⟩))
      rw [Resolve.settings_find? hnone, Resolve.settings_find? hnone, Node.spelledOut_find? hn,
        NodeInfo.defaultData_other hsteps, Option.or_none]

theorem neutral_spelledOut (edges : List Edge) : Neutral .builtin edges Node.spelledOut :=
  ⟨Node.spelledOut_id, Node.spelledOut_type, fun seen n copy =>
    compileNode_spelledOut edges seen n copy⟩

/-- Any of the nodes may be given the defaults of their types under their own entries: the sink, the
target down to its labels, and the statistics are the same. -/
theorem patch_spelledOut (options : CompileOptions) (nodes nodes' : List Node) (edges : List Edge)
    (h : List.Forall₂ (fun n n' => n' = n ∨ n' = n.spelledOut) nodes nodes') :
    patch .builtin options nodes' edges = patch .builtin options nodes edges := by
  have hspelled : nodes'.map Node.spelledOut = nodes.map Node.spelledOut := by
    induction h with
    | nil => rfl
    | @cons n n' nodes nodes' hn _ ih =>
      rw [List.map_cons, List.map_cons, ih]
      rcases hn with rfl | rfl
      · rfl
      · rw [Node.spelledOut_again]
  calc patch .builtin options nodes' edges
      = patch .builtin options (nodes'.map Node.spelledOut) edges :=
        ((neutral_spelledOut edges).patch options nodes').symm
    _ = patch .builtin options (nodes.map Node.spelledOut) edges := by rw [hspelled]
    _ = patch .builtin options nodes edges := (neutral_spelledOut edges).patch options nodes

/-- A keyboard without data and an oscillator with a waveform that is none. -/
theorem patch_spelledOut_keys :
    let keys : Node := ⟨"k", "keyboard", none, .empty⟩
    let tone : Node := ⟨"o", "oscillator", none, .ofList [("waveform", .ofSingle 3.0)]⟩
    let sink : Node := ⟨"out", "output", none, .empty⟩
    let edges : List Edge := [⟨"a", "k", "note", "o", "frequency"⟩,
      ⟨"b", "o", "signal", "out", "left"⟩]
    keys.spelledOut.data.find? "currentNote" = some (.ofSingle 60.0) ∧
      tone.spelledOut.data.find? "gain" = some (.ofSingle 0.5) ∧
      tone.spelledOut.data.find? "waveform" = some (.ofSingle 3.0) ∧
      patch .builtin .full [keys.spelledOut, tone.spelledOut, sink] edges =
        patch .builtin .full [keys, tone, sink] edges := by
  intro keys tone sink edges
  have hkeys : Registry.builtin.find? keys.type = some NodeType.keyboard := rfl
  have htone : Registry.builtin.find? tone.type = some NodeType.oscillator := rfl
  refine ⟨?_, ?_, ?_, ?_⟩
  · rw [Node.spelledOut_find? hkeys]
    rfl
  · rw [Node.spelledOut_find? htone]
    rfl
  · rw [Node.spelledOut_find? htone]
    rfl
  · exact patch_spelledOut .full [keys, tone, sink] [keys.spelledOut, tone.spelledOut, sink] edges
      (.cons (.inr rfl) (.cons (.inr rfl) (.cons (.inl rfl) .nil)))

end Compile

end Patchbay
