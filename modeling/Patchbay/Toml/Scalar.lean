import Patchbay.Json.Reader
import Patchbay.Number.Reading
import Patchbay.Toml.Basic

/-!
# TOML scalars

Strings in their four forms, and the tokens of numbers, dates and times. A reader of a part takes
the characters left and gives what it read and what is left after it.
-/

set_option autoImplicit false

namespace Patchbay

namespace Toml

abbrev Chars := List Char

def isBlank (c : Char) : Bool := c = ' ' || c = '\t'

def skipBlank (cs : Chars) : Chars := cs.dropWhile isBlank

/-- Characters that may stand in comments and strings; of the controls only the tab. -/
def isPrintable (c : Char) : Bool := c = '\t' || (' ' ≤ c && c ≠ '\x7f')

/-- A line end, if one comes next. -/
def newline? : Chars → Option Chars
  | '\n' :: rest => some rest
  | '\r' :: '\n' :: rest => some rest
  | _ => none

/-! ## Strings -/

/-- The character of `count` hexadecimal digits; halves of surrogate pairs are none. -/
def hexChar? (count : Nat) (cs : Chars) : Option (Char × Chars) := do
  let digits := cs.take count
  let values ← digits.mapM Json.hexValue?
  let n := values.foldl (fun n d => n * 16 + d) 0
  if digits.length = count ∧ n.isValidChar then some (Char.ofNat n, cs.drop count) else none

/-- An escape after its backslash. -/
def escape? : Chars → Option (Char × Chars)
  | 'b' :: rest => some ('\x08', rest)
  | 't' :: rest => some ('\t', rest)
  | 'n' :: rest => some ('\n', rest)
  | 'f' :: rest => some ('\x0c', rest)
  | 'r' :: rest => some ('\r', rest)
  | '"' :: rest => some ('"', rest)
  | '\\' :: rest => some ('\\', rest)
  | 'u' :: rest => hexChar? 4 rest
  | 'U' :: rest => hexChar? 8 rest
  | _ => none

/-- A text read so far, last character first, and what is left. -/
def finish (done rest : Chars) : String × Chars := (String.ofList done.reverse, rest)

/-- The rest of a string in double quotes. -/
def basic? : Nat → Chars → Chars → Option (String × Chars)
  | 0, _, _ => none
  | _ + 1, _, [] => none
  | fuel + 1, done, c :: rest =>
    if c = '"' then some (finish done rest)
    else if c = '\\' then do
      let (d, rest) ← escape? rest
      basic? fuel (d :: done) rest
    else if isPrintable c then basic? fuel (c :: done) rest
    else none

/-- The rest of a string in single quotes. -/
def literal? : Chars → Chars → Option (String × Chars)
  | _, [] => none
  | done, c :: rest =>
    if c = '\'' then some (finish done rest)
    else if isPrintable c then literal? (c :: done) rest
    else none

/-- A run of quotes inside a string of several lines. Fewer than three belong to the text; of
five at most the last three close it. -/
def quoteRun (quote : Char) (cs : Chars) : Nat := min (cs.takeWhile (· = quote)).length 5

/-- A backslash at a line end takes away all blanks and line ends up to the next text. -/
def skipLines : Nat → Chars → Chars
  | 0, cs => cs
  | fuel + 1, cs =>
    match newline? (skipBlank cs) with
    | some rest => skipLines fuel rest
    | none => skipBlank cs

/-- The rest of a string over several lines; `quote` is one of its delimiter. Only a string in
double quotes knows escapes. -/
def lines? (quote : Char) : Nat → Chars → Chars → Option (String × Chars)
  | 0, _, _ => none
  | _ + 1, _, [] => none
  | fuel + 1, done, c :: rest =>
    if c = quote then
      let run := quoteRun quote (c :: rest)
      if 3 ≤ run then
        some (finish (List.replicate (run - 3) quote ++ done) ((c :: rest).drop run))
      else lines? quote fuel (c :: done) rest
    else if c = '\\' ∧ quote = '"' then
      match newline? (skipBlank rest) with
      | some after => lines? quote fuel done (skipLines after.length after)
      | none => do
        let (d, rest) ← escape? rest
        lines? quote fuel (d :: done) rest
    else
      match newline? (c :: rest) with
      | some rest => lines? quote fuel ('\n' :: done) rest
      | none => if isPrintable c then lines? quote fuel (c :: done) rest else none

/-- A line end right after the opening quotes is not part of the text. -/
def linesFrom? (quote : Char) (cs : Chars) : Option (String × Chars) :=
  lines? quote (cs.length + 1) [] ((newline? cs).getD cs)

/-- A string in one of the four forms. -/
def string? : Chars → Option (String × Chars)
  | '"' :: '"' :: '"' :: rest => linesFrom? '"' rest
  | '"' :: rest => basic? (rest.length + 1) [] rest
  | '\'' :: '\'' :: '\'' :: rest => linesFrom? '\'' rest
  | '\'' :: rest => literal? [] rest
  | _ => none

/-! ## Numbers -/

/-- Digits with single underscores between them, without these. -/
def digits? (isDigit : Char → Bool) (cs : Chars) : Option Chars :=
  let rec go : Bool → Chars → Option Chars
    | afterDigit, [] => if afterDigit then some [] else none
    | afterDigit, c :: rest =>
      if isDigit c then (c :: ·) <$> go true rest
      else if c = '_' ∧ afterDigit then go false rest
      else none
  go false cs

/-- Decimal digits without a zero in front. -/
def whole? (cs : Chars) : Option Chars := do
  let ds ← digits? Char.isDigit cs
  match ds with
  | '0' :: _ :: _ => none
  | ds => some ds

def integerOf? (negative : Bool) (n : Nat) : Option Toml :=
  if n < 1 <<< 63 ∨ (negative ∧ n = 1 <<< 63) then
    some (.integer (if negative then -(n : Int) else n))
  else none

/-- Digits of a base that is a power of two. -/
def based? (base : Nat) (cs : Chars) : Option Toml := do
  let isDigit (c : Char) : Bool := (Json.hexValue? c).any (· < base)
  let values ← (← digits? isDigit cs).mapM Json.hexValue?
  integerOf? false (values.foldl (fun n d => n * base + d) 0)

def doubleOf? (negative : Bool) (d : Decimal) : Option Toml :=
  let x := d.toDouble negative
  if x.isInf ∧ !negative then none else some (.double x)

/-- The exponent after its mark. -/
def exponent? (cs : Chars) : Option Int := do
  let (negative, cs) := Numeral.splitSign cs
  let n : Int := Decimal.ofDigits (← digits? Char.isDigit cs)
  return if negative then -n else n

/-- A number with a point, an exponent or both. -/
def double? (negative : Bool) (cs : Chars) : Option Toml := do
  let isMark (c : Char) : Bool := c = 'e' || c = 'E'
  let mantissa := cs.takeWhile (!isMark ·)
  let exponent ←
    match cs.dropWhile (!isMark ·) with
    | [] => some 0
    | _ :: rest => exponent? rest
  let whole ← whole? (mantissa.takeWhile (· ≠ '.'))
  let decimals ←
    match mantissa.dropWhile (· ≠ '.') with
    | [] => some []
    | _ :: rest => digits? Char.isDigit rest
  doubleOf? negative (.ofParts whole decimals exponent)

/-- A number after its sign. -/
def unsigned? (negative : Bool) (cs : Chars) : Option Toml :=
  match cs with
  | ['i', 'n', 'f'] => some (.double (if negative then -1.0 / 0.0 else 1.0 / 0.0))
  | ['n', 'a', 'n'] => some (.double (0.0 / 0.0))
  | cs =>
    match whole? cs with
    | some ds => integerOf? negative (Decimal.ofDigits ds)
    | none => double? negative cs

def numeral? (cs : Chars) : Option Toml :=
  match cs with
  | '0' :: 'x' :: rest => based? 16 rest
  | '0' :: 'o' :: rest => based? 8 rest
  | '0' :: 'b' :: rest => based? 2 rest
  | cs =>
    let (negative, rest) := Numeral.splitSign cs
    unsigned? negative rest

/-! ## Dates and times -/

/-- A number of exactly `count` digits within bounds, as it is written. -/
def field? (count low high : Nat) (cs : Chars) : Option (Chars × Chars) :=
  let ds := cs.take count
  let n := Decimal.ofDigits ds
  if ds.length = count ∧ ds.all Char.isDigit ∧ low ≤ n ∧ n ≤ high then some (ds, cs.drop count)
  else none

def expect? (c : Char) : Chars → Option Chars
  | d :: rest => if c = d then some rest else none
  | [] => none

def isLeap (year : Nat) : Bool := year % 4 = 0 && (year % 100 ≠ 0 || year % 400 = 0)

def daysIn (year month : Nat) : Nat :=
  if month = 2 then (if isLeap year then 29 else 28)
  else if month = 4 ∨ month = 6 ∨ month = 9 ∨ month = 11 then 30
  else 31

def date? (cs : Chars) : Option (Chars × Chars) := do
  let (year, cs) ← field? 4 0 9999 cs
  let (month, cs) ← field? 2 1 12 (← expect? '-' cs)
  let (day, cs) ← field? 2 1 (daysIn (Decimal.ofDigits year) (Decimal.ofDigits month))
    (← expect? '-' cs)
  return (year ++ '-' :: month ++ '-' :: day, cs)

/-- A fraction of a second, to nine places and without zeros at its end. -/
def fraction? : Chars → Option (Chars × Chars)
  | '.' :: cs =>
    let ds := cs.takeWhile Char.isDigit
    let kept := ((ds.take 9).reverse.dropWhile (· = '0')).reverse
    if ds.isEmpty then none
    else some (if kept.isEmpty then [] else '.' :: kept, cs.dropWhile Char.isDigit)
  | cs => some ([], cs)

/-- A time of day; a minute may have 61 seconds. -/
def time? (cs : Chars) : Option (Chars × Chars) := do
  let (hour, cs) ← field? 2 0 23 cs
  let (minute, cs) ← field? 2 0 59 (← expect? ':' cs)
  let (second, cs) ← field? 2 0 60 (← expect? ':' cs)
  let (fraction, cs) ← fraction? cs
  return (hour ++ ':' :: minute ++ ':' :: second ++ fraction, cs)

/-- The distance from universal time, if there is one. -/
def offset? : Chars → Option (Chars × Chars)
  | 'Z' :: cs => some (['Z'], cs)
  | 'z' :: cs => some (['Z'], cs)
  | '+' :: cs => hours? '+' cs
  | '-' :: cs => hours? '-' cs
  | cs => some ([], cs)
where
  hours? (sign : Char) (cs : Chars) : Option (Chars × Chars) := do
    let (hour, cs) ← field? 2 0 23 cs
    let (minute, cs) ← field? 2 0 59 (← expect? ':' cs)
    let zero := (hour ++ minute).all (· = '0')
    return ((if zero then '+' else sign) :: hour ++ ':' :: minute, cs)

def momentOf (cs : Chars) : Toml := .moment (String.ofList cs)

/-- A time of day with what may follow it in a moment, up to the end. -/
def clock? (cs : Chars) : Option Chars := do
  let (time, cs) ← time? cs
  let (offset, cs) ← offset? cs
  if cs.isEmpty then some (time ++ offset) else none

/-- A date, or a date and a time with a letter between them, or a time of day. -/
def moment? (cs : Chars) : Option Toml :=
  match date? cs with
  | some (date, []) => some (momentOf date)
  | some (date, c :: rest) =>
    if c = 'T' ∨ c = 't' then (clock? rest).map fun time => momentOf (date ++ 'T' :: time)
    else none
  | none =>
    match time? cs with
    | some (time, []) => some (momentOf time)
    | _ => none

/-! ## Tokens -/

def isToken (c : Char) : Bool :=
  c.isAlphanum || c = '_' || c = '+' || c = '-' || c = '.' || c = ':'

/-- A word, a number or a moment that fills a token. -/
def ofToken? (cs : Chars) : Option Toml :=
  match cs with
  | ['t', 'r', 'u', 'e'] => some (.boolean true)
  | ['f', 'a', 'l', 's', 'e'] => some (.boolean false)
  | cs => moment? cs <|> numeral? cs

/-- The next token. Between a date and a time may stand a single space instead of a letter. -/
def token? (cs : Chars) : Option (Toml × Chars) := do
  let token := cs.takeWhile isToken
  let rest := cs.dropWhile isToken
  match date? token, rest with
  | some (date, []), ' ' :: after =>
    let clock := after.takeWhile isToken
    if clock.isEmpty then return (momentOf date, rest)
    else return (momentOf (date ++ 'T' :: (← clock? clock)), after.dropWhile isToken)
  | _, _ => return (← ofToken? token, rest)

end Toml

end Patchbay
