import Patchbay.Command.Run

/-!
# The command line program

Runs a command on the files of the system.
-/

set_option autoImplicit false

namespace Patchbay

namespace Command

/-- A failed call, by its kind. Codes of the system come with either sign. -/
def faultOf : IO.Error → FileFault
  | .noFileOrDirectory .. => .missing
  | .alreadyExists .. => .taken
  | .inappropriateType _ code _ =>
    if code = 21 ∨ code = -21 then .isDirectory else .notDirectory
  | e => .other (toString e)

def attempt {α : Type} (x : IO α) : IO (Except FileFault α) := do
  match ← x.toBaseIO with
  | .ok y => return .ok y
  | .error e => return .error (faultOf e)

def kindOf (m : IO.FS.Metadata) : FileKind :=
  match m.type with
  | .dir => .directory
  | _ => .file

/-- A path in the current directory. The empty path leads nowhere. -/
def here {α : Type} (path : String) (x : String → IO α) : IO (Except FileFault α) :=
  if path = "" then return .error .missing else attempt (x path)

instance : FileAccess IO where
  kind? path := do
    let found ← here path fun p => do return kindOf (← ((← IO.currentDir) / p).metadata)
    return found.toOption
  read path := here path fun p => IO.FS.readBinFile ⟨p⟩
  write path content := here path fun p => IO.FS.writeBinFile ⟨p⟩ content
  makeDirectory path := here path fun p => IO.FS.createDir ⟨p⟩
  names? path := do
    let found ← here path fun p => do
      return (← ((← IO.currentDir) / p).readDir).toList.map fun entry => entry.fileName
    return found.toOption

/-- The directory for the settings of all programs. -/
def settings (configured home : Option String) : String :=
  match configured.filter Path.isAbsolute, home.filter (· ≠ "") with
  | some directory, _ => directory
  | none, some home => Path.join home ".config"
  | none, none => "."

end Command

end Patchbay

def main (args : List String) : IO UInt32 := do
  let places := ⟨Patchbay.Command.settings (← IO.getEnv "XDG_CONFIG_HOME") (← IO.getEnv "HOME")⟩
  let outcome ← Patchbay.Command.main places args
  IO.print outcome.output
  for message in outcome.error do
    IO.eprintln ("Error: " ++ message)
  if outcome.code = 2 then IO.eprintln Patchbay.Command.usage
  return outcome.code.toUInt32
