/-!
# Columns

Texts filled up with spaces to a width. Longer texts stay as they are.
-/

set_option autoImplicit false

namespace Patchbay

namespace Column

def left (width : Nat) (s : String) : String := s ++ "".pushn ' ' (width - s.length)

def right (width : Nat) (s : String) : String := "".pushn ' ' (width - s.length) ++ s

/-- A line under a heading, as long as the heading has bytes. -/
def rule (heading : String) : String := "".pushn '=' heading.utf8ByteSize

end Column

end Patchbay
