import Patchbay.Document.Patch
import Patchbay.Json.Decode
import Patchbay.Json.Reader
import Patchbay.Json.Writer

/-!
# Patch documents in JSON

Each type of a document has one written form, with its fields in a fixed order, and a decoder that
fills in the fields left out.
-/

set_option autoImplicit false

namespace Patchbay

open Json (Decoded FieldReader)

namespace Param

def toJson : Param → Json
  | bool b => .bool b
  | number x => .ofDouble x
  | text s => .ofString s
  | list xs => .ofList (xs.map Json.ofDouble)

def itemNumber? : Json → Option Float
  | .number n => Json.toDouble? n
  | _ => none

def itemNumbers? : JsonItems → Option (List Float)
  | .done _ => some []
  | .item v rest => do
    let x ← itemNumber? v
    let xs ← itemNumbers? rest
    return x :: xs

/-- The shape of a value that was gone over as a whole. -/
def ofHeld? : Json → Option Param
  | .bool b => some (bool b)
  | .number n => number <$> Json.toDouble? n
  | .string (.text s) => some (text s)
  | .array items => list <$> itemNumbers? items
  | _ => none

/-- A value inside `depth` containers. It is gone over before its shape is looked at. -/
def ofJson (depth : Nat) (j : Json) : Decoded Param := do
  j.hold depth
  match ofHeld? j with
  | some p => return p
  | none => Json.refuse .unknownParam

end Param

namespace Position

def toJson (p : Position) : Json := .ofMembers [("x", .ofDouble p.x), ("y", .ofDouble p.y)]

structure Parts where
  x : Option Float
  y : Option Float

def fields : List (FieldReader Parts) :=
  [.of "x" Parts.x (fun s x => { s with x := some x }) Json.double,
    .of "y" Parts.y (fun s y => { s with y := some y }) Json.double]

def ofJson : Json → Decoded Position :=
  Json.record "Position" fields ⟨none, none⟩ fun missing s => do
    let x ← FieldReader.need missing "x" s.x
    let y ← FieldReader.need missing "y" s.y
    return ⟨x, y⟩

end Position

namespace NodeData

def toJson (d : NodeData) : Json := .ofMembers (d.entries.map fun e => (e.1, e.2.toJson))

/-- Of several values under one name the last one is kept. -/
def ofJson (depth : Nat) (j : Json) : Decoded NodeData :=
  Table.ofList <$> Json.map (Param.ofJson (depth + 1)) j

end NodeData

namespace Node

def toJson (n : Node) : Json :=
  .ofMembers <|
    [("id", .ofString n.id), ("type", .ofString n.type)]
      ++ (match n.position with
        | some p => [("position", p.toJson)]
        | none => [])
      ++ [("data", n.data.toJson)]

structure Parts where
  id : Option String
  type : Option String
  position : Option (Option Position)
  data : Option NodeData

def fields (depth : Nat) : List (FieldReader Parts) :=
  [.of "id" Parts.id (fun s x => { s with id := some x }) Json.text,
    .of "type" Parts.type (fun s x => { s with type := some x }) Json.text,
    .of "position" Parts.position (fun s x => { s with position := some x })
      (Json.optional Position.ofJson),
    .of "data" Parts.data (fun s x => { s with data := some x }) (NodeData.ofJson depth)]

/-- A node inside `depth` containers. -/
def ofJson (depth : Nat) : Json → Decoded Node :=
  Json.record "Node" (fields (depth + 1)) ⟨none, none, none, none⟩ fun missing s => do
    let id ← FieldReader.need missing "id" s.id
    let type ← FieldReader.need missing "type" s.type
    return ⟨id, type, s.position.getD none, s.data.getD .empty⟩

end Node

namespace Edge

def toJson (e : Edge) : Json :=
  .ofMembers [("id", .ofString e.id), ("source", .ofString e.source),
    ("sourceHandle", .ofString e.sourceHandle), ("target", .ofString e.target),
    ("targetHandle", .ofString e.targetHandle)]

structure Parts where
  id : Option String
  source : Option String
  sourceHandle : Option String
  target : Option String
  targetHandle : Option String

def fields : List (FieldReader Parts) :=
  [.of "id" Parts.id (fun s x => { s with id := some x }) Json.text,
    .of "source" Parts.source (fun s x => { s with source := some x }) Json.text,
    .of "sourceHandle" Parts.sourceHandle (fun s x => { s with sourceHandle := some x })
      Json.text,
    .of "target" Parts.target (fun s x => { s with target := some x }) Json.text,
    .of "targetHandle" Parts.targetHandle (fun s x => { s with targetHandle := some x })
      Json.text]

def ofJson : Json → Decoded Edge :=
  Json.record "Edge" fields ⟨none, none, none, none, none⟩ fun missing s => do
    let id ← FieldReader.need missing "id" s.id
    let source ← FieldReader.need missing "source" s.source
    let sourceHandle ← FieldReader.need missing "sourceHandle" s.sourceHandle
    let target ← FieldReader.need missing "target" s.target
    let targetHandle ← FieldReader.need missing "targetHandle" s.targetHandle
    return ⟨id, source, sourceHandle, target, targetHandle⟩

end Edge

namespace Patch

def toJson (p : Patch) : Json :=
  .ofMembers [("nodes", .ofList (p.nodes.map Node.toJson)),
    ("edges", .ofList (p.edges.map Edge.toJson))]

structure Parts where
  nodes : Option (List Node)
  edges : Option (List Edge)

def fields : List (FieldReader Parts) :=
  [.of "nodes" Parts.nodes (fun s x => { s with nodes := some x }) (Json.list (Node.ofJson 2)),
    .of "edges" Parts.edges (fun s x => { s with edges := some x }) (Json.list Edge.ofJson)]

def ofJson : Json → Decoded Patch :=
  Json.record "Patch" fields ⟨none, none⟩ fun _ s =>
    .ok ⟨s.nodes.getD [], s.edges.getD []⟩

end Patch

end Patchbay
