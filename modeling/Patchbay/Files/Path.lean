/-!
# Paths

A path is a text of parts between slashes. Empty parts and single dots say nothing, except for a
dot in front of a relative path.
-/

set_option autoImplicit false

namespace Patchbay

namespace Path

def isAbsolute (path : String) : Bool := path.toList.head? = some '/'

/-- Whether the spelling asks for a directory. -/
def asksDirectory (path : String) : Bool := path.toList.getLast? = some '/'

/-- What stands between the slashes. -/
def pieces (path : String) : List String := (path.toList.splitOn '/').map String.ofList

def isVoid (part : String) : Bool := part = "" || part = "."

/-- The parts that lead somewhere. -/
def parts (path : String) : List String := (pieces path).filter (!isVoid ·)

/-- A path seen from a directory; an absolute one stays. -/
def join (directory path : String) : String :=
  if isAbsolute path then path
  else if directory = "" || asksDirectory directory then directory ++ path
  else directory ++ "/" ++ path

/-- The steps in which a path is followed. A dot stays where it is. -/
def steps (path : String) : List String := (pieces path).filter (· ≠ "")

/-- The directory that a path stands in; the root and the empty path have none. -/
def parent? (path : String) : Option String :=
  match pieces path with
  | [] => none
  | first :: rest =>
    match rest.reverse.dropWhile isVoid with
    | _ :: before =>
      match (before.dropWhile isVoid).reverse with
      | [] => some (if first = "" then "/" else first)
      | kept => some ("/".intercalate (first :: kept))
    | [] => if first = "" then none else some ""

/-- The last part, unless it leads upwards. -/
def fileName? (path : String) : Option String := (parts path).getLast?.filter (· ≠ "..")

/-- A file name up to its last dot, and what stands after it. A dot in front does not count. -/
def splitName (name : String) : String × Option String :=
  let after := name.toList.reverse.takeWhile (· ≠ '.')
  match name.toList.reverse.dropWhile (· ≠ '.') with
  | _ :: c :: before => (String.ofList (c :: before).reverse, some (String.ofList after.reverse))
  | _ => (name, none)

def stem? (path : String) : Option String := (fileName? path).map fun n => (splitName n).1

def extension? (path : String) : Option String := (fileName? path).bind fun n => (splitName n).2

end Path

end Patchbay
