import Mathlib
import Patchbay.Preset.Basic
import Patchbay.Proofs.DoubleText
import Patchbay.Proofs.FiniteReading
import Patchbay.Proofs.TomlAssembly

/-!
# Presets saved in TOML

A preset is read back from its TOML form as it was. Every table of the form is laid out so that it
is read back, and each record is decoded from the table it was written as.
-/

set_option autoImplicit false

namespace Patchbay

namespace Toml

theorem mapM_of_decode {α β : Type} {decode : α → Option β} {write : β → α} {xs : List β}
    (h : ∀ x ∈ xs, decode (write x) = some x) : (xs.map write).mapM decode = some xs := by
  induction xs with
  | nil => rfl
  | cons x xs ih =>
    rw [List.map_cons, List.mapM_cons, h x List.mem_cons_self,
      ih fun y hy => h y (List.mem_cons_of_mem x hy)]
    rfl

theorem list?_tables {α : Type} {decode : Toml → Option α} {write : α → TomlEntries} {xs : List α}
    (h : ∀ x ∈ xs, decode (.table .opened (write x)) = some x) :
    list? decode (emptied (.tables (xs.map write))) = some xs := by
  have hitems : (emptied (.tables (xs.map write))).items? =
      some (xs.map fun x => .table .opened (write x)) := by
    cases xs with
    | nil => rfl
    | cons x xs => simp [emptied, items?, Function.comp_def]
  rw [list?, hitems]
  exact mapM_of_decode h

/-- An array of tables, which may be empty, is restored if each of them is. -/
theorem restored_tables {each : List TomlEntries}
    (h : ∀ es ∈ each, Tidy es ∧ ∀ e ∈ es, Restored 1 e.2) :
    Restored 0 (emptied (.tables each)) := by
  cases each with
  | nil => exact reads_array (by simp) (by decide)
  | cons es each =>
    refine ⟨List.cons_ne_nil _ _, by decide, restoredElements_iff.2 fun es hes => ?_⟩
    exact (h es hes).imp_right restoredEntries_iff.2

end Toml

open Toml (Reads Restored Tidy emptied reads_string reads_boolean reads_integer reads_double
  reads_array)

/-! ## Decoders -/

theorem Param.ofToml?_toToml (p : Param) : ofToml? p.toToml = some p := by
  cases p with
  | bool b => rfl
  | number x => rfl
  | text s => rfl
  | list xs =>
    have hitems : (xs.map Toml.double).mapM Toml.number? = some xs :=
      Toml.mapM_of_decode fun _ _ => rfl
    rw [toToml, ofToml?, hitems]
    rfl

theorem Position.ofToml?_toToml (p : Position) : ofToml? p.toToml = some p := rfl

theorem NodeData.ofToml?_toToml (d : NodeData) : ofToml? d.toToml = some d := by
  rw [toToml, ofToml?]
  simp only [Toml.entries?, Option.bind_eq_bind, Option.bind_some]
  rw [Toml.mapM_of_decode fun e _ => by rw [Param.ofToml?_toToml]; rfl]
  exact congrArg some (Table.ofList_entries d)

theorem Node.ofToml?_toToml (n : Node) : ofToml? (.table .opened n.toToml) = some n := by
  obtain ⟨id, type, position, data⟩ := n
  have hdata : Toml.optional? NodeData.ofToml? (some data.toToml) = some (some data) := by
    rw [Toml.optional?, NodeData.ofToml?_toToml]
    rfl
  cases position with
  | none =>
    show (Toml.optional? NodeData.ofToml? (some data.toToml)).bind _ = _
    rw [hdata]
    rfl
  | some p =>
    show (Toml.optional? NodeData.ofToml? (some data.toToml)).bind _ = _
    rw [hdata]
    rfl

theorem Edge.ofToml?_toToml (e : Edge) : ofToml? (.table .opened e.toToml) = some e := rfl

namespace Preset

theorem toToml_distinct (p : Preset) : (p.toToml.map Prod.fst).Nodup := by
  rw [toToml]
  cases p.description with
  | none => simp
  | some d => simp

theorem find?_toToml (p : Preset) :
    p.toToml.find? "name" = some (.string p.name) ∧
    p.toToml.find? "description" = p.description.map .string ∧
    p.toToml.find? "sample_rate" = some (.integer p.sampleRate.toNat) ∧
    p.toToml.find? "nodes" = some (.tables (p.nodes.map Node.toToml)) ∧
    p.toToml.find? "edges" = some (.tables (p.edges.map Edge.toToml)) := by
  rw [toToml]
  cases p.description with
  | none => simp [TomlEntries.find?]
  | some d => simp [TomlEntries.find?]

theorem ofToml?_arranged (p : Preset) : ofToml? (Toml.arranged p.toToml) = some p := by
  obtain ⟨hname, hdescription, hrate, hnodes, hedges⟩ := p.find?_toToml
  have readName : Toml.required? Toml.text? (some (emptied (.string p.name))) = some p.name := rfl
  have readDescription : Toml.optional? Toml.text? ((p.description.map .string).map emptied) =
      some p.description := by
    cases p.description <;> rfl
  have readRate : Toml.optional? Toml.word? (some (emptied (.integer p.sampleRate.toNat))) =
      some (some p.sampleRate.toNat) := by
    have hword : (0 : Int) ≤ p.sampleRate.toNat ∧ (p.sampleRate.toNat : Int) < UInt32.size :=
      ⟨Int.natCast_nonneg _, Int.ofNat_lt.2 p.sampleRate.toNat_lt⟩
    rw [emptied, Toml.optional?, Toml.word?, if_pos hword]
    · rfl
    · rintro ⟨⟩
  have readNodes : Toml.optional? (Toml.list? Node.ofToml?)
      (some (emptied (.tables (p.nodes.map Node.toToml)))) = some (some p.nodes) := by
    rw [Toml.optional?, Toml.list?_tables fun n _ => n.ofToml?_toToml]
    rfl
  have readEdges : Toml.optional? (Toml.list? Edge.ofToml?)
      (some (emptied (.tables (p.edges.map Edge.toToml)))) = some (some p.edges) := by
    rw [Toml.optional?, Toml.list?_tables fun e _ => e.ofToml?_toToml]
    rfl
  simp only [ofToml?, Toml.find?_arranged p.toToml_distinct, hname, hdescription, hrate, hnodes,
    hedges, Option.map_some, readName, readDescription, readRate, readNodes, readEdges]
  simp [Nat.toUInt32_eq]

end Preset

/-! ## Layout -/

theorem Param.reads_toToml {p : Param} (h : ∀ x ∈ p.numbers, x.isNaN = false) :
    Reads 0 p.toToml := by
  cases p with
  | bool b => exact reads_boolean 0 b
  | number x => exact reads_double (h x (by simp [numbers])) 0
  | text s => exact reads_string 0 s
  | list xs =>
    refine reads_array (fun v hv => ?_) (by decide)
    obtain ⟨x, hx, rfl⟩ := List.mem_map.1 hv
    exact reads_double (h x hx) 1

theorem Param.isPlain_toToml (p : Param) : Toml.isPlain p.toToml := by
  cases p <;> rfl

theorem Param.restored_toToml {p : Param} (h : Reads 0 p.toToml) (depth : Nat) :
    Restored depth p.toToml := by
  cases p <;> exact h

theorem Position.restored_toToml {p : Position} (h : ∀ x ∈ p.numbers, x.isNaN = false) :
    Restored 1 p.toToml := by
  refine ⟨by decide, ⟨by simp, rfl⟩, ?_⟩
  exact ⟨reads_double (h p.x (by simp [numbers])) 0, reads_double (h p.y (by simp [numbers])) 0,
    trivial⟩

theorem NodeData.restored_toToml {d : NodeData} (h : ∀ x ∈ d.numbers, x.isNaN = false) :
    Restored 1 d.toToml := by
  refine ⟨by decide, ⟨?_, ?_⟩, Toml.restoredEntries_iff.2 fun e he => ?_⟩
  · rw [List.map_map]
    exact d.distinct
  · have hplain : ∀ e ∈ d.entries.map fun e => (e.1, e.2.toToml), Toml.isPlain e.2 := by
      intro e he
      obtain ⟨c, -, rfl⟩ := List.mem_map.1 he
      exact c.2.isPlain_toToml
    rw [List.filter_eq_self.2 hplain, List.filter_eq_nil_iff.2 fun e he => by simp [hplain e he],
      List.append_nil]
  · obtain ⟨c, hc, rfl⟩ := List.mem_map.1 he
    have hread : Reads 0 c.2.toToml :=
      Param.reads_toToml fun x hx => h x (List.mem_flatMap.2 ⟨c, hc, hx⟩)
    exact Param.restored_toToml hread 2

theorem Node.restored_toToml {n : Node} (h : ∀ x ∈ n.numbers, x.isNaN = false) :
    Tidy n.toToml ∧ ∀ e ∈ n.toToml, Restored 1 e.2 := by
  obtain ⟨id, type, position, data⟩ := n
  have hdata : Restored 1 data.toToml :=
    NodeData.restored_toToml fun x hx => h x (List.mem_append_right _ hx)
  cases position with
  | none =>
    refine ⟨⟨by simp [toToml], rfl⟩, ?_⟩
    simp only [toToml, List.append_nil, List.cons_append, List.nil_append, List.forall_mem_cons]
    exact ⟨reads_string 0 id, reads_string 0 type, hdata, by simp⟩
  | some p =>
    have hposition : Restored 1 p.toToml :=
      Position.restored_toToml fun x hx => h x (List.mem_append_left _ (by simpa using hx))
    refine ⟨⟨by simp [toToml], rfl⟩, ?_⟩
    simp only [toToml, List.cons_append, List.nil_append, List.forall_mem_cons]
    exact ⟨reads_string 0 id, reads_string 0 type, hposition, hdata, by simp⟩

theorem Edge.restored_toToml (e : Edge) : Tidy e.toToml ∧ ∀ f ∈ e.toToml, Restored 1 f.2 := by
  refine ⟨⟨by simp [toToml], rfl⟩, ?_⟩
  simp only [toToml, List.forall_mem_cons]
  exact ⟨reads_string 0 _, reads_string 0 _, reads_string 0 _, reads_string 0 _,
    reads_string 0 _, by simp⟩

theorem Preset.restored_toToml {p : Preset} (h : ∀ x ∈ p.numbers, x.isNaN = false) :
    ∀ e ∈ p.toToml, Restored 0 (emptied e.2) := by
  obtain ⟨name, description, sampleRate, nodes, edges⟩ := p
  have hrate : Reads 0 (.integer sampleRate.toNat) := by
    have := sampleRate.toNat_lt
    exact reads_integer 0 (by omega) (by omega)
  have hnodes : Restored 0 (emptied (.tables (nodes.map Node.toToml))) := by
    refine Toml.restored_tables fun es hes => ?_
    obtain ⟨n, hn, rfl⟩ := List.mem_map.1 hes
    exact Node.restored_toToml fun x hx => h x (List.mem_flatMap.2 ⟨n, hn, hx⟩)
  have hedges : Restored 0 (emptied (.tables (edges.map Edge.toToml))) := by
    refine Toml.restored_tables fun es hes => ?_
    obtain ⟨e, -, rfl⟩ := List.mem_map.1 hes
    exact e.restored_toToml
  cases description with
  | none =>
    simp only [toToml, List.append_nil, List.cons_append, List.nil_append, List.forall_mem_cons]
    exact ⟨reads_string 0 name, hrate, hnodes, hedges, by simp⟩
  | some d =>
    simp only [toToml, List.cons_append, List.nil_append, List.forall_mem_cons]
    exact ⟨reads_string 0 name, reads_string 0 d, hrate, hnodes, hedges, by simp⟩

namespace Preset

/-- A preset without NaN is read back from its TOML form, whatever its texts and names are and
whichever of its fields are there. -/
theorem readToml?_writeToml (p : Preset) (h : ∀ x ∈ p.numbers, x.isNaN = false) :
    readToml? p.writeToml = some p := by
  rw [readToml?, writeToml, Toml.read?_write_arranged p.toToml_distinct (restored_toToml h)]
  exact p.ofToml?_arranged

/-- A preset with names that need quotes, texts of each form, and a zero and an infinite number. -/
def thicket : Preset where
  name := "two\n\"\"\"lines\"\"\" and '''more'''\\"
  description := some ""
  sampleRate := 4294967295
  nodes := [
    ⟨"ä.b", "", some ⟨-0.0, 1e22⟩, .ofList [("", .text "'\t\x01\r\n"), ("a.b", .number 1e-7),
      ("\"", .list [0.1, 1.0 / 0.0]), ("on", .bool false), ("x", .list [])]⟩,
    ⟨"𝄞", "gain", none, .empty⟩]
  edges := []

theorem readToml?_writeToml_thicket :
    (∀ x ∈ thicket.numbers, x.isNaN = false) ∧ readToml? thicket.writeToml = some thicket := by
  have numbers : ∀ x ∈ thicket.numbers, x.isNaN = false := by
    have hnumbers : thicket.numbers = [-0.0, 1e22, 0.1, 1.0 / 0.0, 1e-7] := rfl
    rw [hnumbers]
    simp only [List.forall_mem_cons]
    exact ⟨rfl, rfl, rfl, rfl, rfl, by simp⟩
  exact ⟨numbers, readToml?_writeToml thicket numbers⟩

end Preset

end Patchbay
