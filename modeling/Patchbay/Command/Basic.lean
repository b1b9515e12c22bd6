import Patchbay.Command.Arguments

/-!
# Commands

What the program can be asked to do, and how it is asked on a command line. A line that asks for
nothing known is refused as a whole.
-/

set_option autoImplicit false

namespace Patchbay

structure RenderOptions where
  preset : String
  output : String
  seconds : Float32
  /-- The preset's own rate if there is none. -/
  sampleRate : Option Nat
  noProbes : Bool
  gates : List String
  settings : List (String × Float32)
  blockSize : Nat
  bitDepth : Nat

structure InspectOptions where
  preset : String
  noProbes : Bool
  showExpr : Bool

inductive PresetCommand where
  | list (factoryOnly userOnly : Bool)
  | describe (name : String)
  | copy (name : String) (output : Option String) (force : Bool)
  | paths

inductive Command where
  | render (o : RenderOptions)
  | inspect (o : InspectOptions)
  | nodes (type category : Option String)
  | presets (c : PresetCommand)

namespace Command

def usage : String := "usage: patchcord [-v] render|inspect|nodes|presets ..."

def flag (long : String) : OptionSpec := ⟨long, none, false, false⟩

def valued (long : String) : OptionSpec := ⟨long, none, true, false⟩

def repeated (long : String) : OptionSpec := ⟨long, none, true, true⟩

/-- Understood everywhere. It has no bearing on what is printed. -/
def verbose : OptionSpec := ⟨"verbose", some 'v', false, false⟩

def output : OptionSpec := ⟨"output", some 'o', true, false⟩

/-- A path; the empty one is none. -/
def path? (s : String) : Option String := if s.isEmpty then none else some s

/-- An integer from 0 up to a bound, with any sign. -/
def ranged? (bound : Nat) (s : String) : Option Nat :=
  let (_, cs) := Numeral.splitSign s.toList
  if cs.isEmpty || !cs.all Char.isDigit then none
  else
    let n := Decimal.ofDigits cs
    if bound < n ∨ (s.startsWith "-" ∧ n ≠ 0) then none else some n

/-- A key and a number with an equals sign between them. -/
def setting? (s : String) : Option (String × Float32) := do
  let (key, value) := Arguments.splitEquals s.toList
  let x ← Numeral.single? (Blank.trim (String.ofList (← value)))
  return (Blank.trim (String.ofList key), x)

def renderSpecs : List OptionSpec :=
  [verbose, output, valued "seconds", valued "sample-rate", flag "no-probes", repeated "gate",
    repeated "set", valued "block-size", valued "bit-depth"]

def readRender? (args : List String) : Option Command := do
  let a ← Arguments.read? renderSpecs args
  let [preset] := a.rest | none
  return .render {
    preset := preset
    output := ← path? (← a.value? "output")
    seconds := ← a.getD? Numeral.single? "seconds" 2.0
    sampleRate := ← a.optional? (ranged? (UInt32.size - 1)) "sample-rate"
    noProbes := a.has "no-probes"
    gates := a.values "gate"
    settings := ← (a.values "set").mapM setting?
    blockSize := ← a.getD? (Numeral.natural? (UInt64.size - 1)) "block-size" 512
    bitDepth := ← a.getD? (ranged? (UInt16.size - 1)) "bit-depth" 32 }

def readInspect? (args : List String) : Option Command := do
  let a ← Arguments.read? [verbose, flag "no-probes", flag "expr"] args
  let [preset] := a.rest | none
  return .inspect ⟨preset, a.has "no-probes", a.has "expr"⟩

def readNodes? (args : List String) : Option Command := do
  let a ← Arguments.read? [verbose, valued "category"] args
  match a.rest with
  | [] => return .nodes none (a.value? "category")
  | [type] => return .nodes (some type) (a.value? "category")
  | _ => none

def readList? (args : List String) : Option PresetCommand := do
  let a ← Arguments.read? [verbose, flag "factory", flag "user"] args
  let [] := a.rest | none
  return .list (a.has "factory") (a.has "user")

def readDescribe? (args : List String) : Option PresetCommand := do
  let a ← Arguments.read? [verbose] args
  let [name] := a.rest | none
  return .describe name

def readCopy? (args : List String) : Option PresetCommand := do
  let a ← Arguments.read? [verbose, output, flag "force"] args
  let [name] := a.rest | none
  return .copy name (← a.optional? path? "output") (a.has "force")

def readPaths? (args : List String) : Option PresetCommand := do
  let a ← Arguments.read? [verbose] args
  let [] := a.rest | none
  return .paths

def readPresets? (args : List String) : Option Command := do
  let (before, name, args) ← Arguments.splitCommand? [verbose] args
  if !Arguments.checkRepeats [verbose] before then none
  else
    match name with
    | "list" => presets <$> readList? args
    | "show" => presets <$> readDescribe? args
    | "export" => presets <$> readCopy? args
    | "paths" => presets <$> readPaths? args
    | _ => none

/-- A command line without the name of the program. -/
def read? (args : List String) : Option Command := do
  let (before, name, args) ← Arguments.splitCommand? [verbose] args
  if !Arguments.checkRepeats [verbose] before then none
  else
    match name with
    | "render" => readRender? args
    | "inspect" => readInspect? args
    | "nodes" => readNodes? args
    | "presets" => readPresets? args
    | _ => none

end Command

end Patchbay
