import Patchbay.Command.Console
import Patchbay.NodeType.Builtin
import Patchbay.Render.Readout
import Patchbay.Text.Column

/-!
# The node types at a glance
-/

set_option autoImplicit false

namespace Patchbay

namespace NodeListing

def entry (i : NodeInfo) : String := "  " ++ Column.left 12 i.id ++ " - " ++ i.description

/-- A category with its node types; an empty one is left out. -/
def category (registry : Registry) (c : Category) : List String :=
  match registry.inCategory c with
  | [] => []
  | infos => "" :: (c.name ++ " - " ++ c.description) :: infos.map entry

def overview (registry : Registry) (cs : List Category) : List String :=
  ["Available Node Types", "===================="] ++ cs.flatMap (category registry)
    ++ ["", "Use 'patchcord nodes <type>' for inlets, outlets, and settings."]

def row (name value : String) : String := "  " ++ Column.left 12 name ++ "  " ++ value

def inlets (i : NodeInfo) : List String :=
  if i.inlets.isEmpty then ["Inlets: none"]
  else
    ["Inlets:", row "Name" "Default", row "----" "-------"]
      ++ i.inlets.map fun inlet => row inlet.name (Readout.value inlet.default)

def settingText (s : Setting) : String :=
  row s.name <|
    match s.kind with
    | .choice options default => " | ".intercalate options ++ " (default " ++ default ++ ")"
    | .number default => "number (default " ++ Readout.value default ++ ")"

def settings (i : NodeInfo) : List String :=
  if i.settings.isEmpty then [] else ["", "Settings:"] ++ i.settings.map settingText

def details (i : NodeInfo) : List String :=
  let heading := i.name ++ " (" ++ i.id ++ ")"
  [heading, Column.rule heading, "", i.description, "Category: " ++ i.category.name, ""]
    ++ inlets i ++ ["", "Outlets: " ++ ", ".intercalate i.outlets] ++ settings i

variable {m : Type → Type} [Monad m]

/-- One node type in detail, or those of one category, or all. -/
def run (type categoryName : Option String) : Console m Unit :=
  match type, categoryName with
  | some type, _ =>
    match Registry.builtin.find? type with
    | some t => Console.printAll (details t.info)
    | none => throw (.unknownNodeType type)
  | none, some name =>
    match Category.ofName? name with
    | some c => Console.printAll (overview .builtin [c])
    | none => throw (.unknownCategory name)
  | none, none => Console.printAll (overview .builtin Category.all)

end NodeListing

end Patchbay
