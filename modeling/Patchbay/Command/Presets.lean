import Patchbay.Command.Basic
import Patchbay.Command.Console
import Patchbay.Text.Column

/-!
# Listing, showing and copying presets
-/

set_option autoImplicit false

namespace Patchbay

namespace PresetListing

def entry (name note : String) : String := "  " ++ Column.left 20 name ++ " - " ++ note

def descriptionOf (p : Preset) : String := p.description.getD ""

def factory : List String :=
  ["Factory Presets:", "================"]
    ++ (Factory.presets.map fun (name, p) => entry name (descriptionOf p)) ++ [""]

def connection (e : Edge) : String :=
  "  " ++ Column.left 14 e.id ++ " " ++ e.source ++ "." ++ e.sourceHandle ++ " -> " ++ e.target
    ++ "." ++ e.targetHandle

def node (n : Node) : List String :=
  ("  " ++ Column.left 16 n.id ++ " " ++ n.type)
    :: n.data.entries.map fun (key, value) => "      " ++ key ++ " = " ++ value.display

def description (p : Preset) : List String :=
  match p.description with
  | some d => ["Description: " ++ d, ""]
  | none => []

def sheet (p : Preset) : List String :=
  let heading := "Preset: " ++ p.name
  [heading, Column.rule heading, ""] ++ description p
    ++ ["Sample Rate: " ++ digitText p.sampleRate.toNat ++ " Hz", "",
      "Nodes (" ++ digitText p.nodes.length ++ "):"]
    ++ p.nodes.flatMap node
    ++ ["", "Connections (" ++ digitText p.edges.length ++ "):"] ++ p.edges.map connection

def placeLines (places : PresetPlaces) : List String :=
  ["Preset Directories:", "===================", "", "User presets:   " ++ places.user,
    "System presets: " ++ PresetPlaces.system, "Config dir:     " ++ places.config]

variable {m : Type → Type} [Monad m] [FileAccess m]

def userEntry (path : String) : Console m String := do
  let name := (Path.stem? path).getD "unknown"
  match ← Storage.load path with
  | .ok p => return entry name (descriptionOf p)
  | .error _ => return "  " ++ Column.left 20 name ++ " - (error loading)"

def user (places : PresetPlaces) : Console m (List String) := do
  let paths ← Storage.list places.user
  let body ←
    if paths.isEmpty then
      pure ["  (none)", "",
        "  Start from a factory preset with: patchcord presets export <name>", ""]
    else paths.mapM userEntry
  return ["User Presets:", "============="] ++ body ++ [""]

/-- A copy goes to the presets of the user unless another path is given. -/
def copyPath (places : PresetPlaces) (name : String) (output : Option String) :
    Console m String := do
  match output with
  | some path => return path
  | none =>
    match ← Storage.ensure places.user with
    | .ok directory =>
      return Path.join directory
        ((Path.stem? name).getD name ++ "." ++ PresetFormat.json.extension)
    | .error e => throw (.storing e)

def copy (places : PresetPlaces) (name : String) (output : Option String) (force : Bool) :
    Console m Unit := do
  let p ← Console.loadPreset places name
  let path ← copyPath places name output
  if (← FileAccess.isThere path) && !force then throw (.alreadyThere path)
  else
    match ← Storage.save p path with
    | .ok () => Console.print ("Exported '" ++ p.name ++ "' to " ++ path)
    | .error e => throw (.storing e)

/-- Each of the two lists can be asked for alone; asking for both that way shows none. -/
def list (places : PresetPlaces) (factoryOnly userOnly : Bool) : Console m Unit := do
  if !userOnly then Console.printAll factory
  if !factoryOnly then Console.printAll (← user places)

def run (places : PresetPlaces) : PresetCommand → Console m Unit
  | .list factoryOnly userOnly => list places factoryOnly userOnly
  | .describe name => do Console.printAll (sheet (← Console.loadPreset places name))
  | .copy name output force => copy places name output force
  | .paths => Console.printAll (placeLines places)

end PresetListing

end Patchbay
