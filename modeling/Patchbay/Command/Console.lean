import Patchbay.NodeType.Basic
import Patchbay.Preset.Storage
import Patchbay.Render.Renderer

/-!
# Running commands

A command prints lines, works with files and may fail. What it printed before a failure stays
printed.
-/

set_option autoImplicit false

namespace Patchbay

inductive CommandError where
  | unknownNodeType (type : String)
  | unknownCategory (name : String)
  | unknownPreset (name : String)
  /-- A preset that is there but cannot be read. -/
  | loading (name : String) (e : PresetError)
  | storing (e : PresetError)
  | alreadyThere (path : String)
  | invalidSeconds
  | invalidBlockSize
  | noOutput (preset : String)
  | noGate (key : String)
  | noConstant (key : String)
  | unsupportedDepth (bits : Nat)
  | rendering (e : RenderError)
  | writing (f : FileFault)

namespace CommandError

def message : CommandError → String
  | unknownNodeType type => "Unknown node type: " ++ type
  | unknownCategory name =>
    "Unknown category: " ++ name ++ " (expected one of: "
      ++ ", ".intercalate (Category.all.map Category.name) ++ ")"
  | unknownPreset name =>
    "Preset '" ++ name ++ "' not found. Use 'patchcord presets list' to see available presets."
  | loading name _ => "loading preset '" ++ name ++ "'"
  | storing e => e.message
  | alreadyThere path => "'" ++ path ++ "' already exists. Use --force to overwrite."
  | invalidSeconds => "--seconds must be positive"
  | invalidBlockSize => "--block-size must be at least 1"
  | noOutput preset => "'" ++ preset ++ "' has no output node; nothing to render"
  | noGate key => "no gate '" ++ key ++ "' in this patch"
  | noConstant key => "no keyed constant '" ++ key ++ "' in this patch"
  | unsupportedDepth bits =>
    "unsupported bit depth " ++ digitText bits ++ " (expected 16, 24, or 32)"
  | rendering e => e.message
  | writing f => f.message

/-- A kernel that cannot run ends the program at once; all else is told to the user. -/
def exitCode : CommandError → Nat
  | rendering (.fault _) => 101
  | _ => 1

end CommandError

/-- What a command leaves behind beside its files. -/
structure Outcome where
  code : Nat
  output : String
  error : Option String

abbrev Console (m : Type → Type) := ExceptT CommandError (StateT String m)

namespace Console

variable {m : Type → Type} [Monad m]

instance [FileAccess m] : FileAccess (Console m) where
  kind? path := ExceptT.lift (StateT.lift (FileAccess.kind? path))
  read path := ExceptT.lift (StateT.lift (FileAccess.read path))
  write path content := ExceptT.lift (StateT.lift (FileAccess.write path content))
  makeDirectory path := ExceptT.lift (StateT.lift (FileAccess.makeDirectory path))
  names? path := ExceptT.lift (StateT.lift (FileAccess.names? path))

def print (line : String) : Console m Unit := modify fun out => out ++ line ++ "\n"

def printAll (lines : List String) : Console m Unit := lines.forM print

/-- Runs a command to its end. -/
def finish (c : Console m Unit) : m Outcome := do
  let (r, output) ← c.run.run ""
  match r with
  | .ok () => return ⟨0, output, none⟩
  | .error e => return ⟨e.exitCode, output, if e.exitCode = 1 then some e.message else none⟩

/-- A preset by path or name. -/
def loadPreset [FileAccess m] (places : PresetPlaces) (name : String) : Console m Preset := do
  match ← Storage.resolve places name with
  | .ok p => return p
  | .error (.notFound _) => throw (.unknownPreset name)
  | .error e => throw (.loading name e)

end Console

end Patchbay
