import Patchbay.Document.JsonForm
import Patchbay.Document.TomlForm

/-!
# Presets

A named patch with a hint at the sample rate to render it at, and its forms in JSON and TOML.
-/

set_option autoImplicit false

namespace Patchbay

structure Preset where
  name : String
  description : Option String
  sampleRate : UInt32
  nodes : List Node
  edges : List Edge

namespace Preset

def defaultSampleRate : UInt32 := 48000

def new (name : String) : Preset := ⟨name, none, defaultSampleRate, [], []⟩

def untitled : Preset := new "Untitled"

def ofPatch (name : String) (p : Patch) : Preset :=
  { new name with nodes := p.nodes, edges := p.edges }

def patch (p : Preset) : Patch := ⟨p.nodes, p.edges⟩

def findNode? (p : Preset) (id : String) : Option Node := p.patch.findNode? id

def nodeTypes (p : Preset) : List String := p.nodes.map Node.type

/-- Equality of values; a NaN differs from itself. -/
def same (p q : Preset) : Bool :=
  p.name == q.name && p.description == q.description && p.sampleRate == q.sampleRate
    && p.patch.same q.patch

/-! ## JSON -/

def toJson (p : Preset) : Json :=
  .ofMembers <|
    [("name", .ofString p.name)]
      ++ (match p.description with
        | some d => [("description", .ofString d)]
        | none => [])
      ++ [("sample_rate", .ofNat p.sampleRate.toNat),
        ("nodes", .ofList (p.nodes.map Node.toJson)),
        ("edges", .ofList (p.edges.map Edge.toJson))]

structure Parts where
  name : Option String
  description : Option (Option String)
  sampleRate : Option Nat
  nodes : Option (List Node)
  edges : Option (List Edge)

open Json (FieldReader)

def fields : List (FieldReader Parts) :=
  [.of "name" Parts.name (fun s x => { s with name := some x }) Json.text,
    .of "description" Parts.description (fun s x => { s with description := some x })
      (Json.optional Json.text),
    .of "sample_rate" Parts.sampleRate (fun s x => { s with sampleRate := some x }) Json.word,
    .of "nodes" Parts.nodes (fun s x => { s with nodes := some x }) (Json.list (Node.ofJson 2)),
    .of "edges" Parts.edges (fun s x => { s with edges := some x }) (Json.list Edge.ofJson)]

def ofJson : Json → Json.Decoded Preset :=
  Json.record "Preset" fields ⟨none, none, none, none, none⟩ fun missing s => do
    let name ← FieldReader.need missing "name" s.name
    return ⟨name, s.description.getD none,
      (s.sampleRate.map Nat.toUInt32).getD defaultSampleRate, s.nodes.getD [], s.edges.getD []⟩

def readJson (text : String) : Json.Decoded Preset := Json.document ofJson (Json.read text)

def writeJson (p : Preset) : String := p.toJson.pretty 0

/-! ## TOML -/

def toToml (p : Preset) : TomlEntries :=
  [("name", .string p.name)]
    ++ (match p.description with
      | some d => [("description", .string d)]
      | none => [])
    ++ [("sample_rate", .integer p.sampleRate.toNat),
      ("nodes", .tables (p.nodes.map Node.toToml)), ("edges", .tables (p.edges.map Edge.toToml))]

def ofToml? (es : TomlEntries) : Option Preset := do
  let name ← Toml.required? Toml.text? (es.find? "name")
  let description ← Toml.optional? Toml.text? (es.find? "description")
  let rate ← Toml.optional? Toml.word? (es.find? "sample_rate")
  let nodes ← Toml.optional? (Toml.list? Node.ofToml?) (es.find? "nodes")
  let edges ← Toml.optional? (Toml.list? Edge.ofToml?) (es.find? "edges")
  return ⟨name, description, (rate.map Nat.toUInt32).getD defaultSampleRate, nodes.getD [],
    edges.getD []⟩

def readToml? (text : String) : Option Preset := (Toml.read? text).bind ofToml?

def writeToml (p : Preset) : String := Toml.write p.toToml

end Preset

end Patchbay
