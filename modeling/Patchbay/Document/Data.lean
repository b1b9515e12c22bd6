import Patchbay.Document.Param
import Patchbay.Document.Table

/-!
# Node data

The settings of a node by name.
-/

set_option autoImplicit false

namespace Patchbay

abbrev NodeData := Table Param

namespace NodeData

def sameEntries : List (String × Param) → List (String × Param) → Bool
  | [], [] => true
  | (k, v) :: as, (l, w) :: bs => k == l && v.same w && sameEntries as bs
  | _, _ => false

/-- Equality of entries; a NaN differs from itself. -/
def same (d e : NodeData) : Bool := sameEntries d.entries e.entries

end NodeData

end Patchbay
