import Patchbay.Files.Path

/-!
# Access to files

What is asked of a file system, and how it can fail. Everything that works with files is written
against these few questions.
-/

set_option autoImplicit false

namespace Patchbay

inductive FileKind where
  | file
  | directory
  deriving DecidableEq, Repr

inductive FileFault where
  | missing
  | notDirectory
  | isDirectory
  | taken
  | nameTooLong
  /-- A path with a NUL character in it. -/
  | malformed
  | notText
  /-- Any other failure, in the words of the system. -/
  | other (text : String)
  deriving DecidableEq, Repr

def FileFault.message : FileFault → String
  | missing => "No such file or directory (os error 2)"
  | taken => "File exists (os error 17)"
  | notDirectory => "Not a directory (os error 20)"
  | isDirectory => "Is a directory (os error 21)"
  | nameTooLong => "File name too long (os error 36)"
  | malformed => "file name contained an unexpected NUL byte"
  | notText => "stream did not contain valid UTF-8"
  | other text => text

class FileAccess (m : Type → Type) where
  kind? : String → m (Option FileKind)
  read : String → m (Except FileFault ByteArray)
  /-- Replaces a file or makes a new one in an existing directory. -/
  write : String → ByteArray → m (Except FileFault Unit)
  makeDirectory : String → m (Except FileFault Unit)
  /-- The names in a directory, in any order. -/
  names? : String → m (Option (List String))

namespace FileAccess

variable {m : Type → Type} [Monad m] [FileAccess m]

def isFile (path : String) : m Bool := do return (← kind? path) = some .file

def isDirectory (path : String) : m Bool := do return (← kind? path) = some .directory

def isThere (path : String) : m Bool := do return (← kind? path).isSome

def readText (path : String) : m (Except FileFault String) := do
  match ← read path with
  | .error f => return .error f
  | .ok bytes =>
    match String.fromUTF8? bytes with
    | some s => return .ok s
    | none => return .error .notText

/-- A directory that is already there is as good as a new one. -/
def unlessDirectory (path : String) : Except FileFault Unit → m (Except FileFault Unit)
  | .ok () => return .ok ()
  | .error f => do return if ← isDirectory path then .ok () else .error f

/-- Makes a directory and, if they are missing, those above it. -/
def makeAbove : Nat → String → m (Except FileFault Unit)
  | 0, _ => return .error .missing
  | fuel + 1, path => do
    match ← makeDirectory path with
    | .error .missing =>
      match Path.parent? path with
      | none => return .error .missing
      | some "" => unlessDirectory path (← makeDirectory path)
      | some above =>
        match ← makeAbove fuel above with
        | .error f => return .error f
        | .ok () => unlessDirectory path (← makeDirectory path)
    | r => unlessDirectory path r

/-- Every step upwards takes away at least one character. -/
def makeDirectories (path : String) : m (Except FileFault Unit) :=
  makeAbove (path.length + 1) path

/-- The first of some paths at which there is a file. -/
def firstFile? : List String → m (Option String)
  | [] => return none
  | path :: rest => do if ← isFile path then return some path else firstFile? rest

end FileAccess

end Patchbay
