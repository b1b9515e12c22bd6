import Patchbay.Number.Reading
import Patchbay.Text.Blank

/-!
# Arguments of a command

Options start with a dash and may stand anywhere; what stands after a double dash is no option
any more. A long option takes its value from behind an equals sign or from the next argument, a
short one also from the rest of its own argument.
-/

set_option autoImplicit false

namespace Patchbay

structure OptionSpec where
  long : String
  short : Option Char
  takesValue : Bool
  /-- Whether it may be given more than once. -/
  repeats : Bool

/-- Arguments sorted out: options in order, each with its value, and all other arguments. -/
structure Arguments where
  options : List (String × String)
  rest : List String

namespace Arguments

def empty : Arguments := ⟨[], []⟩

def addOption (a : Arguments) (name value : String) : Arguments :=
  { a with options := (name, value) :: a.options }

def addRest (a : Arguments) (args : List String) : Arguments := { a with rest := args ++ a.rest }

/-- Whether an argument cannot be the value of the option before it. -/
def looksLikeOption (arg : String) : Bool := arg.startsWith "-" && arg ≠ "-"

/-- A text up to its first equals sign and what stands behind it. -/
def splitEquals (cs : List Char) : List Char × Option (List Char) :=
  match cs.dropWhile (· ≠ '=') with
  | [] => (cs, none)
  | _ :: value => (cs.takeWhile (· ≠ '='), some value)

/-- The options of an argument, and the name of the one that still needs a value. -/
structure Opened where
  options : List (String × String)
  waiting : Option String

def openLong? (specs : List OptionSpec) (cs : List Char) : Option Opened := do
  let (name, value) := splitEquals cs
  let spec ← specs.find? (·.long = String.ofList name)
  match spec.takesValue, value with
  | true, some v => return ⟨[(spec.long, String.ofList v)], none⟩
  | true, none => return ⟨[], some spec.long⟩
  | false, none => return ⟨[(spec.long, "")], none⟩
  | false, some _ => none

/-- One letter after the other, until one takes the rest as its value. -/
def openShort? (specs : List OptionSpec) : List Char → Option Opened
  | [] => some ⟨[], none⟩
  | c :: cs => do
    let spec ← specs.find? (·.short = some c)
    if spec.takesValue then
      match cs with
      | [] => return ⟨[], some spec.long⟩
      | '=' :: value => return ⟨[(spec.long, String.ofList value)], none⟩
      | value => return ⟨[(spec.long, String.ofList value)], none⟩
    else do
      let opened ← openShort? specs cs
      return { opened with options := (spec.long, "") :: opened.options }

def open? (specs : List OptionSpec) (arg : String) : Option Opened :=
  match arg.toList with
  | '-' :: '-' :: cs => openLong? specs cs
  | _ :: cs => openShort? specs cs
  | [] => none

def addAll (a : Arguments) (options : List (String × String)) : Arguments :=
  { a with options := options ++ a.options }

/-- Sorts out arguments. -/
def sort? (specs : List OptionSpec) : List String → Option Arguments
  | [] => some empty
  | "--" :: args => some (empty.addRest args)
  | arg :: args =>
    if looksLikeOption arg then
      match open? specs arg, args with
      | none, _ => none
      | some ⟨options, none⟩, args => (sort? specs args).map (·.addAll options)
      | some ⟨_, some _⟩, [] => none
      | some ⟨options, some name⟩, value :: args =>
        if looksLikeOption value then none
        else (sort? specs args).map fun a => (a.addOption name value).addAll options
    else (sort? specs args).map (·.addRest [arg])

def count (a : Arguments) (name : String) : Nat := (a.options.filter (·.1 = name)).length

/-- Only options that may be repeated stand more than once. -/
def checkRepeats (specs : List OptionSpec) (a : Arguments) : Bool :=
  specs.all fun s => s.repeats || a.count s.long ≤ 1

def read? (specs : List OptionSpec) (args : List String) : Option Arguments :=
  (sort? specs args).filter (checkRepeats specs)

def has (a : Arguments) (name : String) : Bool := 0 < a.count name

def values (a : Arguments) (name : String) : List String :=
  (a.options.filter (·.1 = name)).map Prod.snd

def value? (a : Arguments) (name : String) : Option String := (a.values name).head?

/-- The value of an option that may be missing, but not malformed. -/
def optional? {α : Type} (parse : String → Option α) (a : Arguments) (name : String) :
    Option (Option α) :=
  match a.value? name with
  | none => some none
  | some v => some <$> parse v

def getD? {α : Type} (parse : String → Option α) (a : Arguments) (name : String) (d : α) :
    Option α :=
  (a.optional? parse name).map (·.getD d)

/-- The arguments before the name of a command, that name and those after it. -/
def splitCommand? (specs : List OptionSpec) : List String → Option (Arguments × String × List String)
  | [] => none
  | arg :: args =>
    if looksLikeOption arg then do
      let ⟨options, none⟩ ← open? specs arg | none
      let (a, name, rest) ← splitCommand? specs args
      return (a.addAll options, name, rest)
    else some (empty, arg, args)

end Arguments

end Patchbay
