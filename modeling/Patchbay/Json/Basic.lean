import Patchbay.Number.Text

/-!
# JSON values

The value that a text stands for, as far as the text is well formed: where it stops being so, the
value holds the fault in the place of what could not be read. Readers of particular documents go
through the value from left to right, so the first thing wrong with a text, in its form or in its
content, is the one that they report.

What nobody asks for is skipped with less care than what is read: a skipped string may hold half
of a surrogate pair and a skipped number may be too large. Hence two views of a faulty place.
-/

set_option autoImplicit false

namespace Patchbay

inductive JsonFault where
  /-- The text cannot go on like this. -/
  | malformed
  /-- The text ends too early. -/
  | ended
  deriving DecidableEq, Repr

inductive JsonNumber where
  | natural (n : Nat)
  /-- The number `-n`. -/
  | negative (n : Nat)
  | double (x : Float)
  /-- Beyond the greatest double. -/
  | tooLarge

inductive JsonText where
  | text (s : String)
  /-- A complete string with half of a surrogate pair in it. -/
  | unpaired
  | broken (read skipped : JsonFault)
  deriving DecidableEq, Repr

mutual

inductive Json where
  | null
  | bool (b : Bool)
  | number (n : JsonNumber)
  | string (s : JsonText)
  | array (items : JsonItems)
  | object (members : JsonMembers)
  | broken (read skipped : JsonFault)

/-- Items in order, up to the closing bracket or to the fault that stands in its place. -/
inductive JsonItems where
  | done (fault : Option JsonFault)
  | item (value : Json) (rest : JsonItems)

inductive JsonMembers where
  | done (fault : Option JsonFault)
  | member (key : JsonText) (value : Json) (rest : JsonMembers)

end

namespace JsonItems

def ofList : List Json → JsonItems
  | [] => done none
  | v :: vs => item v (ofList vs)

def length : JsonItems → Nat
  | done _ => 0
  | item _ rest => rest.length + 1

end JsonItems

namespace JsonMembers

def ofList : List (String × Json) → JsonMembers
  | [] => done none
  | (k, v) :: rest => member (.text k) v (ofList rest)

end JsonMembers

namespace Json

def ofString (s : String) : Json := string (.text s)

def ofNat (n : Nat) : Json := number (.natural n)

/-- Numbers that are not finite have no JSON form. -/
def ofDouble (x : Float) : Json := if x.isFinite then number (.double x) else null

def ofList (vs : List Json) : Json := array (.ofList vs)

def ofMembers (ms : List (String × Json)) : Json := object (.ofList ms)

end Json

end Patchbay
