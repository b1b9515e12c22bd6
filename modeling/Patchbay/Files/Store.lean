import Patchbay.Files.Access

/-!
# A file system in memory

Files and directories by their place below the root. A path is followed part by part, and every
part but the last has to lead into a directory.
-/

set_option autoImplicit false

namespace Patchbay

/-- The parts of an absolute path, without steps upwards. -/
abbrev Place := List String

structure FileStore where
  /-- Files with their content, directories without one. -/
  entries : List (Place × Option ByteArray)
  /-- The directory that relative paths start from. -/
  here : Place

namespace FileStore

def find? (s : FileStore) (p : Place) : Option (Option ByteArray) :=
  (s.entries.find? fun e => e.1 = p).map Prod.snd

/-- The root is always a directory. -/
def kindAt (s : FileStore) (p : Place) : Option FileKind :=
  if p = [] then some .directory
  else (s.find? p).map fun content => if content.isSome then .file else .directory

/-- The place after one more step. -/
def step (p : Place) (part : String) : Place :=
  if part = "." then p else if part = ".." then p.dropLast else p ++ [part]

def follow (s : FileStore) (p : Place) (part : String) : Except FileFault Place :=
  match s.kindAt p with
  | none => .error .missing
  | some .file => .error .notDirectory
  | some .directory => if 255 < part.utf8ByteSize then .error .nameTooLong else .ok (step p part)

/-- Where a path leads. Nothing needs to be there yet. -/
def locate (s : FileStore) (path : String) : Except FileFault Place :=
  if '\x00' ∈ path.toList then .error .malformed
  else if path = "" then .error .missing
  else (Path.steps path).foldlM s.follow (if Path.isAbsolute path then [] else s.here)

/-- What is at the end of a path. -/
def kind? (s : FileStore) (path : String) : Except FileFault (Place × FileKind) := do
  let p ← s.locate path
  match s.kindAt p with
  | none => throw .missing
  | some .file => if Path.asksDirectory path then throw .notDirectory else return (p, .file)
  | some .directory => return (p, .directory)

def put (s : FileStore) (p : Place) (content : Option ByteArray) : FileStore :=
  { s with entries := (p, content) :: s.entries.filter (·.1 ≠ p) }

def read (s : FileStore) (path : String) : Except FileFault ByteArray := do
  let (p, _) ← s.kind? path
  match s.find? p with
  | some (some content) => return content
  | _ => throw .isDirectory

def write (s : FileStore) (path : String) (content : ByteArray) :
    Except FileFault FileStore := do
  let p ← s.locate path
  if Path.asksDirectory path || s.kindAt p = some .directory then throw .isDirectory
  else
    match s.kindAt p.dropLast with
    | some .directory => return s.put p (some content)
    | some .file => throw .notDirectory
    | none => throw .missing

def makeDirectory (s : FileStore) (path : String) : Except FileFault FileStore := do
  let p ← s.locate path
  match s.kindAt p with
  | some _ => throw .taken
  | none => return s.put p none

def names? (s : FileStore) (path : String) : Option (List String) :=
  match s.kind? path with
  | .ok (p, .directory) =>
    some (s.entries.filterMap fun e => if e.1.dropLast = p then e.1.getLast? else none)
  | _ => none

/-- The outcome of a change; a failed one changes nothing. -/
def changed (s : FileStore) : Except FileFault FileStore → Except FileFault Unit × FileStore
  | .ok t => (.ok (), t)
  | .error f => (.error f, s)

instance : FileAccess (StateM FileStore) where
  kind? path := fun s => ((s.kind? path).toOption.map Prod.snd, s)
  read path := fun s => (s.read path, s)
  write path content := fun s => s.changed (s.write path content)
  makeDirectory path := fun s => s.changed (s.makeDirectory path)
  names? path := fun s => (s.names? path, s)

def empty (here : Place) : FileStore := ⟨[], here⟩

/-- Adds a directory and those above it. -/
def addDirectory (s : FileStore) (path : String) : FileStore :=
  ((FileAccess.makeDirectories path : StateM FileStore (Except FileFault Unit)).run s).2

/-- Adds a file and the directories above it. -/
def addFile (s : FileStore) (path content : String) : FileStore :=
  let t := s.addDirectory ((Path.parent? path).getD "")
  (t.changed (t.write path content.toUTF8)).2

/-- A working directory with files and directories in it. -/
def ofFiles (here : String) (files : List (String × String)) (directories : List String) :
    FileStore :=
  let s := (empty (Path.parts here)).addDirectory here
  directories.foldl addDirectory (files.foldl (fun s (path, content) => s.addFile path content) s)

end FileStore

end Patchbay
