import Patchbay.Toml.Document
import Patchbay.Toml.Scalar

/-!
# Reading TOML

The statements of a text. Every call of a reader of values takes one unit of fuel, and no text
needs more than two units for each of its characters.
-/

set_option autoImplicit false

namespace Patchbay

namespace Toml

/-! ## Keys -/

def isBare (c : Char) : Bool := c.isAlphanum || c = '_' || c = '-'

def simpleKey? (cs : Chars) : Option (String × Chars) :=
  match cs with
  | '"' :: rest => basic? (rest.length + 1) [] rest
  | '\'' :: rest => literal? [] rest
  | cs =>
    let bare := cs.takeWhile isBare
    if bare.isEmpty then none else some (String.ofList bare, cs.dropWhile isBare)

/-- Keys may have fewer parts, and values fewer levels, than this. -/
def depthLimit : Nat := 80

/-- The parts of a dotted key, with blanks around each. -/
def keyParts? : Nat → Chars → Option (List String × Chars)
  | 0, _ => none
  | fuel + 1, cs => do
    let (part, rest) ← simpleKey? (skipBlank cs)
    match skipBlank rest with
    | '.' :: rest => do
      let (parts, rest) ← keyParts? fuel rest
      return (part :: parts, rest)
    | rest => return ([part], rest)

/-- A dotted key as the path to its last part. -/
def key? (cs : Chars) : Option (List String × String × Chars) := do
  let (parts, rest) ← keyParts? (depthLimit - 1) cs
  return (parts.dropLast, ← parts.getLast?, rest)

/-! ## Values -/

def skipComment (cs : Chars) : Chars :=
  match cs with
  | '#' :: rest => rest.dropWhile isPrintable
  | cs => cs

/-- Skips blanks, line ends and whole lines of comment. -/
def skipSpace : Nat → Chars → Chars
  | 0, cs => cs
  | fuel + 1, cs =>
    let cs := skipBlank cs
    match newline? (skipComment cs) with
    | some rest => skipSpace fuel rest
    | none => cs

def skipAll (cs : Chars) : Chars := skipSpace (cs.length + 1) cs

mutual

/-- A value inside `depth` others. -/
def value? : Nat → Nat → Chars → Option (Toml × Chars)
  | 0, _, _ => none
  | fuel + 1, depth, cs =>
    match cs with
    | '[' :: rest =>
      if depthLimit ≤ depth + 1 then none
      else do
        let (items, rest) ← arrayItems? fuel (depth + 1) (skipAll rest)
        return (.array items, rest)
    | '\x7b' :: rest =>
      if depthLimit ≤ depth + 1 then none
      else
        match skipBlank rest with
        | '\x7d' :: rest => some (.table .inlined [], rest)
        | _ => do
          let (values, rest) ← inlineValues? fuel (depth + 1) rest
          return (← inline? values, rest)
    | c :: _ =>
      if c = '"' ∨ c = '\'' then do
        let (s, rest) ← string? cs
        return (.string s, rest)
      else token? cs
    | [] => none

/-- The items of an array up to its closing bracket. A comma may stand after the last one. -/
def arrayItems? : Nat → Nat → Chars → Option (List Toml × Chars)
  | 0, _, _ => none
  | fuel + 1, depth, cs =>
    match cs with
    | ']' :: rest => some ([], rest)
    | cs => do
      let (v, rest) ← value? fuel depth cs
      match skipAll rest with
      | ']' :: rest => return ([v], rest)
      | ',' :: rest => do
        let (vs, rest) ← arrayItems? fuel depth (skipAll rest)
        return (v :: vs, rest)
      | _ => none

/-- The values of a table in braces up to its closing brace, on one line. -/
def inlineValues? : Nat → Nat → Chars →
    Option (List (List String × String × Toml) × Chars)
  | 0, _, _ => none
  | fuel + 1, depth, cs => do
    let (path, key, rest) ← key? cs
    let rest ← expect? '=' rest
    let (v, rest) ← value? fuel depth (skipBlank rest)
    match skipBlank rest with
    | '\x7d' :: rest => return ([(path, key, v)], rest)
    | ',' :: rest => do
      let (vs, rest) ← inlineValues? fuel depth rest
      return ((path, key, v) :: vs, rest)
    | _ => none

end

/-! ## Statements -/

/-- The end of a line, with a comment in front of it, or the end of the text. -/
def lineEnd? (cs : Chars) : Option Chars :=
  match skipComment (skipBlank cs) with
  | [] => some []
  | cs => newline? cs

/-- A header between its brackets. -/
def statement? (cs : Chars) : Option (TomlStatement × Chars) :=
  match cs with
  | '[' :: '[' :: rest => do
    let (path, key, rest) ← key? rest
    return (.openElement path key, ← expect? ']' (← expect? ']' rest))
  | '[' :: rest => do
    let (path, key, rest) ← key? rest
    return (.openTable path key, ← expect? ']' rest)
  | cs => do
    let (path, key, rest) ← key? cs
    let rest ← expect? '=' rest
    let (v, rest) ← value? (2 * cs.length + 2) 0 (skipBlank rest)
    return (.value path key v, rest)

/-- Statements with a line for each; other lines are blank or hold a comment. -/
def statements? : Nat → Chars → Option (List TomlStatement)
  | 0, _ => none
  | fuel + 1, cs =>
    match skipAll cs with
    | [] => some []
    | rest =>
      if (lineEnd? rest).any List.isEmpty then some []
      else do
        let (s, rest) ← statement? rest
        let ss ← statements? fuel (← lineEnd? rest)
        return s :: ss

/-- A text as a table. A byte order mark may stand in front of it. -/
def read? (s : String) : Option TomlEntries := do
  let cs :=
    match s.toList with
    | '\ufeff' :: cs => cs
    | cs => cs
  ofStatements? (← statements? (cs.length + 1) cs)

end Toml

end Patchbay
