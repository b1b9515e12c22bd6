import Patchbay.Command.Inspect
import Patchbay.Command.Nodes
import Patchbay.Command.Presets
import Patchbay.Command.Render

/-!
# The program

From the arguments to the outcome. Arguments that are no command end the program with code 2
before anything is done.
-/

set_option autoImplicit false

namespace Patchbay

namespace Command

variable {m : Type → Type} [Monad m] [FileAccess m]

def run (places : PresetPlaces) : Command → Console m Unit
  | render o => Rendering.run places o
  | inspect o => Inspection.run places o
  | nodes type category => NodeListing.run type category
  | presets c => PresetListing.run places c

def main (places : PresetPlaces) (args : List String) : m Outcome :=
  match read? args with
  | some c => (c.run places).finish
  | none => return ⟨2, "", none⟩

end Command

end Patchbay
