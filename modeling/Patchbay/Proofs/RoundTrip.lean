import Mathlib
import Patchbay.Proofs.FiniteReading
import Patchbay.Proofs.JsonRead

/-!
# Saved presets

A preset is read back from its JSON form as it was. Each written form goes through its decoder
member by member: optional fields that were left out take their defaults again, and the kind of a
node data value is told by the shape of what was written for it.
-/

set_option autoImplicit false

namespace Patchbay

namespace Json

/-- The digits written for a double are read as that double. -/
def ReadsBack (x : Float) : Prop :=
  readValue 1 (numberText (.double x)).toList = (number (.double x), [])

theorem ofDouble_of_finite {x : Float} (h : x.isFinite = true) : ofDouble x = number (.double x) :=
  if_pos h

section Containers

variable {α : Type} {decode : Json → Decoded α} {write : α → Json}

theorem list_ofList {xs : List α} (h : ∀ x ∈ xs, decode (write x) = .ok x) :
    list decode (ofList (xs.map write)) = .ok xs := by
  rw [ofList, list]
  induction xs with
  | nil => rfl
  | cons x xs ih =>
    have hx := h x (by simp)
    have hxs := ih fun y hy => h y (by simp [hy])
    rw [List.map_cons, JsonItems.ofList, listItems, hx, hxs]
    rfl

theorem map_ofMembers {es : List (String × α)} (h : ∀ e ∈ es, decode (write e.2) = .ok e.2) :
    map decode (ofMembers (es.map fun e => (e.1, write e.2))) = .ok es := by
  rw [ofMembers, map]
  induction es with
  | nil => rfl
  | cons e es ih =>
    have he := h e (by simp)
    have hes := ih fun y hy => h y (by simp [hy])
    rw [List.map_cons, JsonMembers.ofList, mapMembers, he, hes]
    rfl

end Containers

theorem recordMembers_member {σ : Type} {fields : List (FieldReader σ)} {k : String}
    {f : FieldReader σ} {v : Json} {s s' : σ} (hfind : fields.find? (·.name = k) = some f)
    (hset : f.isSet s = false) (hdecode : f.decode v s = .ok s') (rest : List (String × Json)) :
    recordMembers fields (.ofList ((k, v) :: rest)) s = recordMembers fields (.ofList rest) s' := by
  rw [JsonMembers.ofList, recordMembers, key]
  simp only [hfind, hset, hdecode, bind, Except.bind, Bool.false_eq_true, if_false]

theorem decode_of {σ α : Type} {name : String} {get : σ → Option α} {set : σ → α → σ}
    {decode : Json → Decoded α} {v : Json} {x : α} (h : decode v = .ok x) (s : σ) :
    (FieldReader.of name get set decode).decode v s = .ok (set s x) := by
  rw [FieldReader.of]
  simp only [h]
  rfl

end Json

/-! ## Decoders -/

namespace Param

theorem itemNumbers?_doubles {xs : List Float} (h : ∀ x ∈ xs, x.isFinite = true) :
    itemNumbers? (.ofList (xs.map Json.ofDouble)) = some xs := by
  induction xs with
  | nil => rfl
  | cons x xs ih =>
    have hxs := ih fun y hy => h y (by simp [hy])
    rw [List.map_cons, Json.ofDouble_of_finite (h x (by simp)), JsonItems.ofList, itemNumbers?, hxs]
    rfl

theorem holdItems_doubles {xs : List Float} (h : ∀ x ∈ xs, x.isFinite = true) (depth : Nat) :
    Json.holdItems depth (.ofList (xs.map Json.ofDouble)) = .ok () := by
  induction xs with
  | nil => rfl
  | cons x xs ih =>
    have hxs := ih fun y hy => h y (by simp [hy])
    rw [List.map_cons, Json.ofDouble_of_finite (h x (by simp)), JsonItems.ofList, Json.holdItems, hxs]
    rfl

theorem ofJson_toJson {p : Param} (h : ∀ x ∈ p.numbers, x.isFinite = true) {depth : Nat}
    (hdepth : depth + 1 < Json.nestingLimit) : ofJson depth p.toJson = .ok p := by
  cases p with
  | bool b => rfl
  | number x =>
    rw [toJson, Json.ofDouble_of_finite (h x (by simp [numbers]))]
    rfl
  | text s => rfl
  | list xs =>
    rw [numbers] at h
    rw [ofJson, toJson, Json.ofList, Json.hold, if_neg (by omega), holdItems_doubles h, ofHeld?,
      itemNumbers?_doubles h]
    rfl

end Param

theorem Position.ofJson_toJson {p : Position} (h : ∀ x ∈ p.numbers, x.isFinite = true) :
    ofJson p.toJson = .ok p := by
  rw [toJson, Json.ofDouble_of_finite (h p.x (by simp [numbers])),
    Json.ofDouble_of_finite (h p.y (by simp [numbers]))]
  rfl

theorem NodeData.ofJson_toJson {d : NodeData} (h : ∀ x ∈ d.numbers, x.isFinite = true) {depth : Nat}
    (hdepth : depth + 2 < Json.nestingLimit) : ofJson depth d.toJson = .ok d := by
  have hmap : Json.map (Param.ofJson (depth + 1)) d.toJson = .ok d.entries :=
    Json.map_ofMembers fun e he =>
      Param.ofJson_toJson (fun x hx => h x (List.mem_flatMap.2 ⟨e, he, hx⟩)) hdepth
  rw [ofJson, hmap]
  exact congrArg Except.ok (Table.ofList_entries d)

theorem Node.ofJson_toJson {n : Node} (h : ∀ x ∈ n.numbers, x.isFinite = true) {depth : Nat}
    (hdepth : depth + 3 < Json.nestingLimit) : ofJson depth n.toJson = .ok n := by
  obtain ⟨id, type, position, data⟩ := n
  have hdata : NodeData.ofJson (depth + 1) data.toJson = .ok data :=
    NodeData.ofJson_toJson (fun x hx => h x (List.mem_append_right _ hx)) hdepth
  cases position with
  | none =>
    have hfields : Json.recordMembers (fields (depth + 1)) (.ofList [("id", .ofString id),
        ("type", .ofString type), ("data", data.toJson)]) ⟨none, none, none, none⟩ =
        .ok ⟨some id, some type, none, some data⟩ := by
      rw [Json.recordMembers_member rfl rfl rfl, Json.recordMembers_member rfl rfl rfl,
        Json.recordMembers_member rfl rfl (Json.decode_of hdata _)]
      rfl
    rw [toJson, ofJson, Json.ofMembers, Json.record]
    simp only [List.cons_append, List.nil_append]
    rw [hfields]
    rfl
  | some p =>
    have hposition : Json.optional Position.ofJson p.toJson = .ok (some p) := by
      have hp : Position.ofJson p.toJson = .ok p :=
        Position.ofJson_toJson fun x hx => h x (List.mem_append_left _ (by simpa using hx))
      show some <$> Position.ofJson p.toJson = .ok (some p)
      rw [hp]
      rfl
    have hfields : Json.recordMembers (fields (depth + 1)) (.ofList [("id", .ofString id),
        ("type", .ofString type), ("position", p.toJson), ("data", data.toJson)])
        ⟨none, none, none, none⟩ = .ok ⟨some id, some type, some (some p), some data⟩ := by
      rw [Json.recordMembers_member rfl rfl rfl, Json.recordMembers_member rfl rfl rfl,
        Json.recordMembers_member rfl rfl (Json.decode_of hposition _),
        Json.recordMembers_member rfl rfl (Json.decode_of hdata _)]
      rfl
    rw [toJson, ofJson, Json.ofMembers, Json.record]
    simp only [List.cons_append, List.nil_append]
    rw [hfields]
    rfl

theorem Edge.ofJson_toJson (e : Edge) : ofJson e.toJson = .ok e := rfl

theorem Preset.ofJson_toJson {p : Preset} (h : ∀ x ∈ p.numbers, x.isFinite = true) :
    ofJson p.toJson = .ok p := by
  obtain ⟨name, description, sampleRate, nodes, edges⟩ := p
  have hrate : Json.word (.ofNat sampleRate.toNat) = .ok sampleRate.toNat :=
    if_pos sampleRate.toNat_lt
  have hnodes : Json.list (Node.ofJson 2) (.ofList (nodes.map Node.toJson)) = .ok nodes :=
    Json.list_ofList fun n hn =>
      Node.ofJson_toJson (fun x hx => h x (List.mem_flatMap.2 ⟨n, hn, hx⟩)) (by decide)
  have hedges : Json.list Edge.ofJson (.ofList (edges.map Edge.toJson)) = .ok edges :=
    Json.list_ofList fun e _ => Edge.ofJson_toJson e
  have hlast (s : Parts) (hs : s.sampleRate = none ∧ s.nodes = none ∧ s.edges = none) :
      Json.recordMembers fields (.ofList [("sample_rate", .ofNat sampleRate.toNat),
        ("nodes", .ofList (nodes.map Node.toJson)), ("edges", .ofList (edges.map Edge.toJson))]) s =
      .ok { s with sampleRate := some sampleRate.toNat, nodes := some nodes, edges := some edges } := by
    obtain ⟨name', description', rate', nodes', edges'⟩ := s
    obtain ⟨rfl, rfl, rfl⟩ := hs
    rw [Json.recordMembers_member rfl rfl (Json.decode_of hrate _),
      Json.recordMembers_member rfl rfl (Json.decode_of hnodes _),
      Json.recordMembers_member rfl rfl (Json.decode_of hedges _)]
    rfl
  have hmade (description : Option String) :
      (.ok ⟨name, description, sampleRate.toNat.toUInt32, nodes, edges⟩ : Json.Decoded Preset) =
        .ok ⟨name, description, sampleRate, nodes, edges⟩ := by
    rw [Nat.toUInt32_eq, UInt32.ofNat_toNat]
  rw [toJson, ofJson, Json.ofMembers, Json.record]
  cases description with
  | none =>
    simp only [List.cons_append, List.nil_append]
    rw [Json.recordMembers_member rfl rfl rfl, hlast _ ⟨rfl, rfl, rfl⟩]
    exact hmade none
  | some d =>
    simp only [List.cons_append, List.nil_append]
    rw [Json.recordMembers_member rfl rfl rfl, Json.recordMembers_member rfl rfl rfl,
      hlast _ ⟨rfl, rfl, rfl⟩]
    exact hmade (some d)

/-! ## Texts -/

open Json (Plain ReadsBack plain_ofList plain_ofMembers)

theorem plain_ofDouble {x : Float} (h : x.isFinite = true → ReadsBack x) :
    Plain (Json.ofDouble x) := by
  rw [Json.ofDouble]
  split
  · next hx => exact h hx
  · trivial

theorem Param.plain_toJson {p : Param} (h : ∀ x ∈ p.numbers, x.isFinite = true → ReadsBack x) :
    Plain p.toJson := by
  cases p with
  | bool b => trivial
  | number x => exact plain_ofDouble (h x (by simp [numbers]))
  | text s => trivial
  | list xs =>
    refine plain_ofList fun v hv => ?_
    obtain ⟨x, hx, rfl⟩ := List.mem_map.1 hv
    exact plain_ofDouble (h x hx)

theorem Position.plain_toJson {p : Position}
    (h : ∀ x ∈ p.numbers, x.isFinite = true → ReadsBack x) : Plain p.toJson :=
  ⟨plain_ofDouble (h p.x (by simp [numbers])), plain_ofDouble (h p.y (by simp [numbers])), trivial⟩

theorem NodeData.plain_toJson {d : NodeData}
    (h : ∀ x ∈ d.numbers, x.isFinite = true → ReadsBack x) : Plain d.toJson := by
  refine plain_ofMembers fun m hm => ?_
  obtain ⟨e, he, rfl⟩ := List.mem_map.1 hm
  exact Param.plain_toJson fun x hx => h x (List.mem_flatMap.2 ⟨e, he, hx⟩)

theorem Node.plain_toJson {n : Node} (h : ∀ x ∈ n.numbers, x.isFinite = true → ReadsBack x) :
    Plain n.toJson := by
  obtain ⟨id, type, position, data⟩ := n
  have hdata : Plain data.toJson :=
    NodeData.plain_toJson fun x hx => h x (List.mem_append_right _ hx)
  cases position with
  | none => exact ⟨trivial, trivial, hdata, trivial⟩
  | some p =>
    have hposition : Plain p.toJson :=
      Position.plain_toJson fun x hx => h x (List.mem_append_left _ (by simpa using hx))
    exact ⟨trivial, trivial, hposition, hdata, trivial⟩

theorem Edge.plain_toJson (e : Edge) : Plain e.toJson :=
  ⟨trivial, trivial, trivial, trivial, trivial, trivial⟩

theorem Preset.plain_toJson {p : Preset} (h : ∀ x ∈ p.numbers, x.isFinite = true → ReadsBack x) :
    Plain p.toJson := by
  obtain ⟨name, description, sampleRate, nodes, edges⟩ := p
  have hrate : Plain (.ofNat sampleRate.toNat) :=
    Json.readValue_natural (sampleRate.toNat_lt.le.trans (by decide))
  have hnodes : Plain (.ofList (nodes.map Node.toJson)) := by
    refine plain_ofList fun v hv => ?_
    obtain ⟨n, hn, rfl⟩ := List.mem_map.1 hv
    exact Node.plain_toJson fun x hx => h x (List.mem_flatMap.2 ⟨n, hn, hx⟩)
  have hedges : Plain (.ofList (edges.map Edge.toJson)) := by
    refine plain_ofList fun v hv => ?_
    obtain ⟨e, -, rfl⟩ := List.mem_map.1 hv
    exact e.plain_toJson
  cases description with
  | none => exact ⟨trivial, hrate, hnodes, hedges, trivial⟩
  | some d => exact ⟨trivial, trivial, hrate, hnodes, hedges, trivial⟩

namespace Preset

/-- A preset whose numbers are all finite is read back from its JSON form, and so is every preset
that was read from a text, provided that its numbers are written as digits that read back. -/
theorem readJson_writeJson (p : Preset) (digits : ∀ x ∈ p.numbers, x.isFinite = true → ReadsBack x) :
    ((∀ x ∈ p.numbers, x.isFinite = true) → readJson p.writeJson = .ok p) ∧
    ∀ text, readJson text = .ok p → readJson p.writeJson = .ok p := by
  have hfinite (h : ∀ x ∈ p.numbers, x.isFinite = true) : readJson p.writeJson = .ok p := by
    rw [readJson, writeJson, Json.read_pretty (plain_toJson digits), Json.document]
    simp only [ofJson_toJson h]
    rfl
  exact ⟨hfinite, fun text h => hfinite (isFinite_of_readJson h)⟩

/-- A preset with values of every kind, quotes, controls and characters beyond the basic plane. -/
def sketch : Preset where
  name := "Drone \"ä\" \n\x01"
  description := some "𝄞\\"
  sampleRate := 44100
  nodes := [
    ⟨"osc", "oscillator", some ⟨0.5, -120.25⟩, .ofList [("freq", .number 440.0),
      ("wave", .text "saw"), ("sync", .bool true)]⟩,
    ⟨"seq", "sequencer", none, .ofList [("steps", .list [0.1, -0.0, 0.001]), ("ties", .list [])]⟩]
  edges := [⟨"e1", "osc", "out", "seq", "in"⟩]

theorem readJson_writeJson_sketch :
    (∀ x ∈ sketch.numbers, x.isFinite = true → ReadsBack x) ∧
    (∀ x ∈ sketch.numbers, x.isFinite = true) ∧ readJson sketch.writeJson = .ok sketch := by
  have hnumbers : sketch.numbers = [0.5, -120.25, 440.0, 0.1, -0.0, 0.001] := rfl
  have digits : ∀ x ∈ sketch.numbers, x.isFinite = true → ReadsBack x := by
    rw [hnumbers]
    simp only [List.forall_mem_cons]
    exact ⟨fun _ => rfl, fun _ => rfl, fun _ => rfl, fun _ => rfl, fun _ => rfl, fun _ => rfl, by simp⟩
  have finite : ∀ x ∈ sketch.numbers, x.isFinite = true := by
    rw [hnumbers]
    simp only [List.forall_mem_cons]
    exact ⟨rfl, rfl, rfl, rfl, rfl, rfl, by simp⟩
  exact ⟨digits, finite, (readJson_writeJson sketch digits).1 finite⟩

-- Numbers are scaled in double precision when they are read, so not all digits come back.
example : (Json.double (Json.read "3.7416573867739413").1).toOption.map Float.toBits ≠
    some (3.7416573867739413 : Float).toBits := by decide +kernel

end Preset

end Patchbay
