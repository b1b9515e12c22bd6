import Patchbay.Files.Access
import Patchbay.Preset.Factory

/-!
# Stored presets

Presets live in files whose extension tells their format. A preset is named by a path, by the
name of a factory preset or by the name of a file in the directories of the user and the system,
looked up in this order.
-/

set_option autoImplicit false

namespace Patchbay

inductive PresetFormat where
  | json
  | toml
  deriving DecidableEq, Repr

namespace PresetFormat

def extension : PresetFormat → String
  | json => "json"
  | toml => "toml"

/-- By extension, the case of ASCII letters aside. What is not TOML is JSON. -/
def ofPath (path : String) : PresetFormat :=
  match Path.extension? path with
  | some e => if e.toLower = "toml" then toml else json
  | none => json

end PresetFormat

inductive PresetError where
  | unreadable (path : String) (fault : FileFault)
  | unwritable (path : String) (fault : FileFault)
  | json (e : JsonError)
  | toml
  | notFound (name : String)
  | createDirectory (path : String) (fault : FileFault)

namespace PresetError

def message : PresetError → String
  | unreadable path fault => "failed to read file '" ++ path ++ "': " ++ fault.message
  | unwritable path fault => "failed to write file '" ++ path ++ "': " ++ fault.message
  | json _ => "invalid JSON preset"
  | toml => "failed to parse TOML"
  | notFound name => "preset not found: " ++ name
  | createDirectory path fault =>
    "failed to create directory '" ++ path ++ "': " ++ fault.message

end PresetError

namespace Preset

/-- A text in a format as a preset. -/
def decode (format : PresetFormat) (text : String) : Except PresetError Preset :=
  match format with
  | .json =>
    match readJson text with
    | .ok p => .ok p
    | .error e => .error (.json e)
  | .toml =>
    match readToml? text with
    | some p => .ok p
    | none => .error .toml

def encode (format : PresetFormat) (p : Preset) : String :=
  match format with
  | .json => p.writeJson
  | .toml => p.writeToml

end Preset

/-- The directories of the user, below the one for the settings of all programs. -/
structure PresetPlaces where
  settings : String

namespace PresetPlaces

def config (p : PresetPlaces) : String := Path.join p.settings "patchcord"

def user (p : PresetPlaces) : String := Path.join p.config "presets"

def system : String := "/usr/share/patchcord/presets"

end PresetPlaces

namespace Storage

/-- The extensions of preset files, in the order in which they are tried. -/
def extensions : List String := [PresetFormat.json.extension, PresetFormat.toml.extension]

def hasPresetExtension (path : String) : Bool :=
  (Path.extension? path).any fun e => extensions.contains e.toLower

/-- The file names that a preset name may stand for. -/
def fileNames (name : String) : List String :=
  if hasPresetExtension name then [name] else extensions.map fun e => name ++ "." ++ e

/-- Where to look for a preset, first the name as a path. -/
def searchPaths (places : PresetPlaces) (name : String) : List String :=
  name :: [places.user, PresetPlaces.system].flatMap fun d => (fileNames name).map (Path.join d)

variable {m : Type → Type} [Monad m] [FileAccess m]

def find? (places : PresetPlaces) (name : String) : m (Option String) :=
  FileAccess.firstFile? (searchPaths places name)

/-- The preset files of a directory, sorted. A directory that cannot be read has none. -/
def list (directory : String) : m (List String) := do
  let names := (← FileAccess.names? directory).getD []
  let sorted := names.mergeSort fun a b => !(b < a)
  ((sorted.map (Path.join directory)).filter hasPresetExtension).filterM FileAccess.isFile

/-- The presets of the user, then those of the system. -/
def listAll (places : PresetPlaces) : m (List String) := do
  return (← list places.user) ++ (← list PresetPlaces.system)

def load (path : String) : m (Except PresetError Preset) := do
  match ← FileAccess.readText path with
  | .ok text => return Preset.decode (.ofPath path) text
  | .error f => return .error (.unreadable path f)

/-- Makes a directory unless there is something in its place. -/
def ensure (directory : String) : m (Except PresetError String) := do
  if ← FileAccess.isThere directory then return .ok directory
  else
    match ← FileAccess.makeDirectories directory with
    | .ok () => return .ok directory
    | .error f => return .error (.createDirectory directory f)

def writeText (path text : String) : m (Except PresetError Unit) := do
  match ← FileAccess.write path text.toUTF8 with
  | .ok () => return .ok ()
  | .error f => return .error (.unwritable path f)

/-- Writes a preset in the format of the path. Missing directories above it are made. -/
def save (p : Preset) (path : String) : m (Except PresetError Unit) := do
  let directory := (Path.parent? path).getD ""
  let text := p.encode (.ofPath path)
  if directory = "" then writeText path text
  else
    match ← ensure directory with
    | .ok _ => writeText path text
    | .error e => return .error e

/-- An existing file, a factory preset or a stored one. -/
def resolve (places : PresetPlaces) (name : String) : m (Except PresetError Preset) := do
  if ← FileAccess.isFile name then load name
  else
    match Factory.preset? name with
    | some p => return .ok p
    | none =>
      match ← find? places name with
      | some path => load path
      | none => return .error (.notFound name)

end Storage

end Patchbay
