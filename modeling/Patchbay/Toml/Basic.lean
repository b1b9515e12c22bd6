/-!
# TOML values

A document is a table whose entries are values, further tables and arrays of tables. How a table
came about decides what may still be added to it, so its form is kept.
-/

set_option autoImplicit false

namespace Patchbay

inductive TomlForm where
  /-- Opened by a header of its own. -/
  | opened
  /-- On the way to a table that was opened. -/
  | implied
  /-- On the way to a value under a dotted key. -/
  | dotted
  /-- Written in braces. -/
  | inlined
  deriving DecidableEq, Repr

inductive Toml where
  | string (s : String)
  | integer (n : Int)
  | double (x : Float)
  | boolean (b : Bool)
  /-- A date, a time of day or both, in their usual form. -/
  | moment (text : String)
  | array (items : List Toml)
  | table (form : TomlForm) (entries : List (String × Toml))
  | tables (each : List (List (String × Toml)))

abbrev TomlEntries := List (String × Toml)

namespace TomlEntries

def find? (es : TomlEntries) (key : String) : Option Toml :=
  (List.find? (fun e => e.1 = key) es).map Prod.snd

/-- Puts a value under a key, in the place of an older one. -/
def put (key : String) (value : Toml) : TomlEntries → TomlEntries
  | [] => [(key, value)]
  | (k, v) :: rest => if k = key then (key, value) :: rest else (k, v) :: put key value rest

/-- Adds a value under a key that has none. -/
def add? (es : TomlEntries) (key : String) (value : Toml) : Option TomlEntries :=
  match es.find? key with
  | some _ => none
  | none => some (es ++ [(key, value)])

end TomlEntries

end Patchbay
