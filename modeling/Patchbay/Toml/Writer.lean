import Patchbay.Json.Writer
import Patchbay.Toml.Scalar

/-!
# Writing TOML

Plain values come first, then every table under a header of its own with a blank line in front of
it. Of the ways to quote a text the first that needs no escape is taken.
-/

set_option autoImplicit false

namespace Patchbay

namespace Toml

/-! ## Strings and keys -/

/-- The longest run of a character. -/
def longestRun (c : Char) (cs : Chars) : Nat :=
  (cs.foldl (fun (run, longest) d =>
    let run := if d = c then run + 1 else 0
    (run, max longest run)) (0, 0)).2

def isControl (c : Char) : Bool := c < ' ' || c = '\x7f'

/-- What decides how a text can be quoted. -/
structure TextShape where
  /-- Controls other than tab and newline. -/
  controls : Bool
  newline : Bool
  backslash : Bool
  singleRun : Nat
  doubleRun : Nat

def TextShape.of (cs : Chars) : TextShape where
  controls := cs.any fun c => isControl c && c ≠ '\t' && c ≠ '\n'
  newline := cs.contains '\n'
  backslash := cs.contains '\\'
  singleRun := longestRun '\'' cs
  doubleRun := longestRun '"' cs

def hexDigit (n : Nat) : Char := (Json.hexDigit n).toUpper

/-- A character between double quotes. `lines` says whether line ends may stand as they are. -/
def escapeChar (lines : Bool) (c : Char) : Chars :=
  match c with
  | '\x08' => ['\\', 'b']
  | '\t' => ['\\', 't']
  | '\n' => if lines then ['\n'] else ['\\', 'n']
  | '\x0c' => ['\\', 'f']
  | '\r' => ['\\', 'r']
  | '\\' => ['\\', '\\']
  | c =>
    if isControl c then ['\\', 'u', '0', '0', hexDigit (c.toNat / 16), hexDigit (c.toNat % 16)]
    else [c]

/-- A text between double quotes, with at most `quotes` of these in a row left as they are. -/
def escape (lines : Bool) (quotes : Nat) : Nat → Chars → Chars
  | _, [] => []
  | run, c :: rest =>
    if c = '"' then
      if run < quotes then c :: escape lines quotes (run + 1) rest
      else '\\' :: c :: escape lines quotes 0 rest
    else escapeChar lines c ++ escape lines quotes 0 rest

def basic (cs : Chars) : String := "\"" ++ String.ofList (escape false 0 0 cs) ++ "\""

def literal (cs : Chars) : String := "'" ++ String.ofList cs ++ "'"

/-- The line end that is dropped again by a reader. -/
def firstLine (shape : TextShape) : String := if shape.newline then "\n" else ""

def basicLines (shape : TextShape) (cs : Chars) : String :=
  "\"\"\"" ++ firstLine shape ++ String.ofList (escape true 2 0 cs) ++ "\"\"\""

def literalLines (shape : TextShape) (cs : Chars) : String :=
  "'''" ++ firstLine shape ++ String.ofList cs ++ "'''"

def quote (s : String) : String :=
  let cs := s.toList
  let shape := TextShape.of cs
  if !shape.controls && !shape.backslash && shape.doubleRun = 0 && !shape.newline then basic cs
  else if !shape.controls && shape.singleRun = 0 && !shape.newline then literal cs
  else if !shape.controls && !shape.backslash && shape.doubleRun < 3 then basicLines shape cs
  else if !shape.controls && shape.singleRun < 3 then literalLines shape cs
  else if shape.newline then basicLines shape cs
  else basic cs

def keyText (s : String) : String :=
  let cs := s.toList
  let shape := TextShape.of cs
  if !cs.isEmpty && cs.all (fun c => c.isAlphanum || c = '_' || c = '-') then s
  else if !shape.controls && !shape.backslash && shape.doubleRun = 0 then basic cs
  else if !shape.controls && shape.singleRun = 0 && !shape.newline then literal cs
  else basic cs

/-! ## Values -/

/-- Doubles always show a decimal and never an exponent. -/
def numberLayout : NumberLayout := ⟨.up, none, 1, false, "nan", "inf"⟩

def integerText (n : Int) : String := (if n < 0 then "-" else "") ++ digitText n.natAbs

/-- The items of an array, one a line as soon as there are two. -/
def arrayText : List String → String
  | [] => "[]"
  | [v] => "[" ++ v ++ "]"
  | vs => "[\n" ++ String.join (vs.map fun v => "    " ++ v ++ ",\n") ++ "]"

mutual

def valueText : Toml → String
  | string s => quote s
  | integer n => integerText n
  | double x => numberLayout.double x
  | boolean b => if b then "true" else "false"
  | moment t => t
  | array items => arrayText (itemTexts items)
  | table _ [] => "\x7b\x7d"
  | table _ entries => "\x7b " ++ ", ".intercalate (entryTexts entries) ++ " \x7d"
  | tables _ => "[]"

def itemTexts : List Toml → List String
  | [] => []
  | v :: vs => valueText v :: itemTexts vs

def entryTexts : List (String × Toml) → List String
  | [] => []
  | (k, v) :: rest => (keyText k ++ " = " ++ valueText v) :: entryTexts rest

end

/-! ## Tables -/

/-- Whether an entry stands in the lines of its table and not under a header. -/
def isPlain : Toml → Bool
  | table .opened _ => false
  | tables (_ :: _) => false
  | _ => true

def lines (es : TomlEntries) : String :=
  String.join ((es.filter fun e => isPlain e.2).map fun e =>
    keyText e.1 ++ " = " ++ valueText e.2 ++ "\n")

def pathText (path : List String) : String := ".".intercalate (path.map keyText)

mutual

/-- The tables of an entry, each under its header. -/
def sections (path : List String) : Toml → List String
  | table .opened entries =>
    ("[" ++ pathText path ++ "]\n" ++ lines entries) :: entrySections path entries
  | tables each => elementSections path each
  | _ => []

def entrySections (path : List String) : List (String × Toml) → List String
  | [] => []
  | (k, v) :: rest => sections (path ++ [k]) v ++ entrySections path rest

def elementSections (path : List String) : List (List (String × Toml)) → List String
  | [] => []
  | entries :: rest =>
    (("[[" ++ pathText path ++ "]]\n" ++ lines entries) :: entrySections path entries)
      ++ elementSections path rest

end

/-- A document. Its own values form a part without a header, which may be missing. -/
def write (es : TomlEntries) : String :=
  let top := lines es
  "\n".intercalate ((if top.isEmpty then [] else [top]) ++ entrySections [] es)

end Toml

end Patchbay
