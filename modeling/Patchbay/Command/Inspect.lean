import Patchbay.Command.Basic
import Patchbay.Command.Console
import Patchbay.Compile.Target
import Patchbay.NodeType.Builtin
import Patchbay.Preset.Check
import Patchbay.Text.Column

/-!
# What becomes of a preset

A report on the problems of a preset, the order of its nodes, and what the compiler made of it.
-/

set_option autoImplicit false

namespace Patchbay

namespace Inspection

/-- Takes down a node, unless a node of its label was taken down before. -/
def note (seen : List Expr) (e : Expr) : List Expr :=
  if seen.any (·.label = e.label) then seen else seen ++ [e]

/-- The distinct nodes of both channels, each of which is visited on its own. -/
def nodes (t : RenderTarget) : List Expr := ([t.left, t.right].flatMap Expr.nodes).foldl note []

/-- The keys of constants, in order and each once. -/
def constKeys (t : RenderTarget) : List String :=
  let keys := (nodes t).filterMap fun e => e.key.filter fun _ => e.const?.isSome
  (keys.mergeSort fun a b => !(b < a)).eraseReps

def tapCount (t : RenderTarget) : Nat := (nodes t).countP fun e => e.op.tap?.isSome

def heading (p : Preset) : List String :=
  [p.name, Column.rule p.name] ++ p.description.toList
    ++ ["", "Nodes: " ++ digitText p.nodes.length ++ "  Edges: " ++ digitText p.edges.length]

def problems (p : Preset) : List String :=
  match Check.preset .builtin p with
  | [] => ["Validation: ok"]
  | ps => "Validation:" :: ps.map fun problem => "  - " ++ problem.message

def orderEntry (n : Node) (place : Nat) : String :=
  "  " ++ Column.right 2 (digitText place) ++ ". " ++ Column.left 16 n.id ++ " (" ++ n.type ++ ")"

def order (p : Preset) : List String :=
  ["", "Evaluation order:"]
    ++ ((Order.sortedNodes p.nodes p.edges).zipIdx 1).map fun (n, i) => orderEntry n i

def count (name : String) (n : Nat) : String := "  " ++ Column.left 10 name ++ " " ++ digitText n

def compilation (c : Compilation) : List String :=
  ["", "Compile:", "  sink       " ++ c.sink.getD "(none)", count "compiled" c.stats.compiled,
    count "skipped" c.stats.skipped, count "failed" c.stats.failed,
    count "dropped" c.stats.dropped, count "orphans" c.stats.orphans,
    count "probes" c.stats.probes]

def wideCount (name value : String) : String := "  " ++ Column.left 12 name ++ " " ++ value

def target (t : RenderTarget) (showExpr : Bool) : List String :=
  let keys := constKeys t
  ["", "Expression:", wideCount "left nodes" (digitText t.left.nodeCount),
      wideCount "right nodes" (digitText t.right.nodeCount),
      wideCount "shared" (Param.boolText (t.left.identical t.right)),
      wideCount "taps" (digitText (tapCount t)),
      wideCount "keyed consts" (digitText keys.length)]
    ++ keys.map (fun key => "    " ++ key)
    ++ if showExpr then ["", "left  = " ++ t.left.text, "right = " ++ t.right.text] else []

def report (p : Preset) (o : InspectOptions) : List String :=
  let options := if o.noProbes then CompileOptions.bare else .full
  let c := Compile.patch .builtin options p.nodes p.edges
  heading p ++ problems p ++ order p ++ compilation c
    ++ match c.target with
      | some t => target t o.showExpr
      | none => ["", "Nothing to render."]

variable {m : Type → Type} [Monad m] [FileAccess m]

def run (places : PresetPlaces) (o : InspectOptions) : Console m Unit := do
  Console.printAll (report (← Console.loadPreset places o.preset) o)

end Inspection

end Patchbay
