import Patchbay.Document.Patch
import Patchbay.Toml.Reader
import Patchbay.Toml.Writer

/-!
# Patch documents in TOML

The same documents as in JSON. A reader does not tell what is wrong with a text. Records may be
tables or arrays of their fields in order; names and items that are not asked for are ignored.
-/

set_option autoImplicit false

namespace Patchbay

namespace Toml

def text? : Toml → Option String
  | string s => some s
  | _ => none

/-- The double nearest to an integer. -/
def ofInteger (n : Int) : Float := (Exact.finite (n < 0) n.natAbs 0).toDouble

def number? : Toml → Option Float
  | integer n => some (ofInteger n)
  | double x => some x
  | _ => none

/-- A natural number below 2 ^ 32. -/
def word? : Toml → Option Nat
  | integer n => if 0 ≤ n ∧ n < UInt32.size then some n.toNat else none
  | _ => none

def items? : Toml → Option (List Toml)
  | array items => some items
  | tables each => some (each.map (table .opened))
  | _ => none

/-- The one entry that a date or time has where a table is expected. -/
def momentKey : String := "$__toml_private_datetime"

def entries? : Toml → Option TomlEntries
  | table _ es => some es
  | moment t => some [(momentKey, string t)]
  | _ => none

def list? {α : Type} (decode : Toml → Option α) (v : Toml) : Option (List α) := do
  (← v.items?).mapM decode

/-- The values of the fields of a record, in the order of their names. -/
def fields? (names : List String) (v : Toml) : Option (List (Option Toml)) :=
  match v.items? with
  | some items => some ((List.range names.length).map (items[·]?))
  | none => v.entries?.map fun es => names.map fun name => es.find? name

/-- A field that may be missing. -/
def optional? {α : Type} (decode : Toml → Option α) : Option Toml → Option (Option α)
  | none => some none
  | some v => some <$> decode v

/-- A field that has to be there. -/
def required? {α : Type} (decode : Toml → Option α) (v : Option Toml) : Option α := v.bind decode

end Toml

namespace Param

def toToml : Param → Toml
  | bool b => .boolean b
  | number x => .double x
  | text s => .string s
  | list xs => .array (xs.map .double)

def ofToml? : Toml → Option Param
  | .boolean b => some (bool b)
  | .string s => some (text s)
  | .array items => list <$> items.mapM Toml.number?
  | v => number <$> v.number?

end Param

namespace Position

def toToml (p : Position) : Toml := .table .opened [("x", .double p.x), ("y", .double p.y)]

def ofToml? (v : Toml) : Option Position := do
  match ← v.fields? ["x", "y"] with
  | [x, y] => return ⟨← Toml.required? Toml.number? x, ← Toml.required? Toml.number? y⟩
  | _ => none

end Position

namespace NodeData

def toToml (d : NodeData) : Toml := .table .opened (d.entries.map fun e => (e.1, e.2.toToml))

def ofToml? (v : Toml) : Option NodeData := do
  let es ← (← v.entries?).mapM fun (k, v) => (Param.ofToml? v).map fun p => (k, p)
  return .ofList es

end NodeData

namespace Node

def toToml (n : Node) : TomlEntries :=
  [("id", .string n.id), ("type", .string n.type)]
    ++ (match n.position with
      | some p => [("position", p.toToml)]
      | none => [])
    ++ [("data", n.data.toToml)]

def ofToml? (v : Toml) : Option Node := do
  match ← v.fields? ["id", "type", "position", "data"] with
  | [id, type, position, data] =>
    return ⟨← Toml.required? Toml.text? id, ← Toml.required? Toml.text? type,
      ← Toml.optional? Position.ofToml? position,
      (← Toml.optional? NodeData.ofToml? data).getD .empty⟩
  | _ => none

end Node

namespace Edge

def toToml (e : Edge) : TomlEntries :=
  [("id", .string e.id), ("source", .string e.source), ("sourceHandle", .string e.sourceHandle),
    ("target", .string e.target), ("targetHandle", .string e.targetHandle)]

def ofToml? (v : Toml) : Option Edge := do
  match ← v.fields? ["id", "source", "sourceHandle", "target", "targetHandle"] with
  | [id, source, sourceHandle, target, targetHandle] =>
    return ⟨← Toml.required? Toml.text? id, ← Toml.required? Toml.text? source,
      ← Toml.required? Toml.text? sourceHandle, ← Toml.required? Toml.text? target,
      ← Toml.required? Toml.text? targetHandle⟩
  | _ => none

end Edge

end Patchbay
