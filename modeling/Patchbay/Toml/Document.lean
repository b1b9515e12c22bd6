import Patchbay.Toml.Basic

/-!
# TOML statements

A document is a list of statements: headers that open a table or a further element of an array of
tables, and values under dotted keys in the table opened last. A table is opened at most once, and
a dotted key may not reach into a table that was opened or written in braces.
-/

set_option autoImplicit false

namespace Patchbay

inductive TomlStatement where
  | value (path : List String) (key : String) (v : Toml)
  | openTable (path : List String) (key : String)
  | openElement (path : List String) (key : String)

namespace Toml

/-- Whether a path may lead through a table. -/
def passes (dotted : Bool) : TomlForm → Bool
  | .opened => !dotted
  | .implied => true
  | .dotted => true
  | .inlined => false

/-- Changes the table at the end of a path. Missing tables on the way are made, and an array of
tables stands for its last element. -/
def update? (dotted : Bool) (f : TomlForm → TomlEntries → Option TomlEntries) :
    List String → TomlForm → TomlEntries → Option TomlEntries
  | [], form, es => f form es
  | key :: path, _, es =>
    match es.find? key with
    | none => do
      let form := if dotted then TomlForm.dotted else .implied
      return es.put key (.table form (← update? dotted f path form []))
    | some (.table form inner) =>
      if passes dotted form then do
        return es.put key (.table form (← update? dotted f path form inner))
      else none
    | some (.tables each) => do
      let last ← each.getLast?
      return es.put key (.tables (each.dropLast ++ [← update? dotted f path .opened last]))
    | some _ => none

/-- A header takes over a table that was only implied. -/
def openTable? (key : String) (_ : TomlForm) (es : TomlEntries) : Option TomlEntries :=
  match es.find? key with
  | none => some (es.put key (.table .opened []))
  | some (.table .implied inner) => some (es.put key (.table .opened inner))
  | some _ => none

def openElement? (key : String) (_ : TomlForm) (es : TomlEntries) : Option TomlEntries :=
  match es.find? key with
  | none => some (es.put key (.tables [[]]))
  | some (.tables each) => some (es.put key (.tables (each ++ [[]])))
  | some _ => none

/-- A dotted key ends in a table made by dotted keys, a plain one does not. -/
def addLast? (plain : Bool) (key : String) (v : Toml) (form : TomlForm) (es : TomlEntries) :
    Option TomlEntries :=
  if decide (form = .dotted) = plain then none else es.add? key v

/-- Adds a value under a dotted key. -/
def addAt? (path : List String) (key : String) (v : Toml) (form : TomlForm) (es : TomlEntries) :
    Option TomlEntries :=
  update? true (addLast? path.isEmpty key v) path form es

/-- A table in braces from its values. -/
def inline? (values : List (List String × String × Toml)) : Option Toml :=
  table .inlined <$>
    values.foldlM (fun es (path, key, v) => addAt? path key v .inlined es) ([] : TomlEntries)

/-- The document so far and the table that values go to. -/
structure Assembly where
  root : TomlEntries
  current : List String

def Assembly.add? (a : Assembly) : TomlStatement → Option Assembly
  | .value path key v => do
    let root ← update? false (addAt? path key v) a.current .opened a.root
    return { a with root := root }
  | .openTable path key => do
    return ⟨← update? false (openTable? key) path .opened a.root, path ++ [key]⟩
  | .openElement path key => do
    return ⟨← update? false (openElement? key) path .opened a.root, path ++ [key]⟩

def ofStatements? (statements : List TomlStatement) : Option TomlEntries :=
  (statements.foldlM Assembly.add? ⟨[], []⟩).map Assembly.root

end Toml

end Patchbay
