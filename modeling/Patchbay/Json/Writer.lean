import Patchbay.Json.Basic

/-!
# Writing JSON

A compact form without blanks and a pretty form with one member or item a line. Both write the
same texts for strings and numbers.
-/

set_option autoImplicit false

namespace Patchbay

namespace Json

/-- Doubles always show a point or an exponent. -/
def numberLayout : NumberLayout := ⟨.even, some (-5, 15), 1, true, "null", "null"⟩

def numberText : JsonNumber → String
  | .natural n => digitText n
  | .negative n => "-" ++ digitText n
  | .double x => numberLayout.double x
  | .tooLarge => "null"

def hexDigit (n : Nat) : Char := (Nat.toDigits 16 n).headD '0'

/-- Quotes, backslashes and controls are escaped, nothing else. -/
def escapeChar (c : Char) : List Char :=
  match c with
  | '"' => ['\\', '"']
  | '\\' => ['\\', '\\']
  | '\x08' => ['\\', 'b']
  | '\x0c' => ['\\', 'f']
  | '\n' => ['\\', 'n']
  | '\r' => ['\\', 'r']
  | '\t' => ['\\', 't']
  | c =>
    if c < ' ' then ['\\', 'u', '0', '0', hexDigit (c.toNat / 16), hexDigit (c.toNat % 16)]
    else [c]

def quote (s : String) : String := String.ofList ('"' :: s.toList.flatMap escapeChar ++ ['"'])

def textOf : JsonText → String
  | .text s => quote s
  | _ => "null"

mutual

def compact : Json → String
  | null => "null"
  | bool b => if b then "true" else "false"
  | number n => numberText n
  | string s => textOf s
  | array items => "[" ++ compactItems items ++ "]"
  | object members => "\x7b" ++ compactMembers members ++ "\x7d"
  | broken _ _ => "null"

def compactItems : JsonItems → String
  | .done _ => ""
  | .item v (.done _) => compact v
  | .item v rest => compact v ++ "," ++ compactItems rest

def compactMembers : JsonMembers → String
  | .done _ => ""
  | .member k v (.done _) => textOf k ++ ":" ++ compact v
  | .member k v rest => textOf k ++ ":" ++ compact v ++ "," ++ compactMembers rest

end

def newline (depth : Nat) : String := "\n" ++ "".pushn ' ' (2 * depth)

mutual

/-- The pretty form of a value that starts on a line indented by `depth`. -/
def pretty (depth : Nat) : Json → String
  | null => "null"
  | bool b => if b then "true" else "false"
  | number n => numberText n
  | string s => textOf s
  | array (.done _) => "[]"
  | array items => "[" ++ prettyItems (depth + 1) items ++ newline depth ++ "]"
  | object (.done _) => "\x7b\x7d"
  | object members => "\x7b" ++ prettyMembers (depth + 1) members ++ newline depth ++ "\x7d"
  | broken _ _ => "null"

def prettyItems (depth : Nat) : JsonItems → String
  | .done _ => ""
  | .item v (.done _) => newline depth ++ pretty depth v
  | .item v rest => newline depth ++ pretty depth v ++ "," ++ prettyItems depth rest

def prettyMembers (depth : Nat) : JsonMembers → String
  | .done _ => ""
  | .member k v (.done _) => newline depth ++ textOf k ++ ": " ++ pretty depth v
  | .member k v rest =>
    newline depth ++ textOf k ++ ": " ++ pretty depth v ++ "," ++ prettyMembers depth rest

end

end Json

end Patchbay
