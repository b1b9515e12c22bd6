import Patchbay.Expr.Op

/-!
# Signal expressions

An expression is an operation over child expressions, with an optional key under which a
renderer can address it. Every node carries a label that says where it was built; two nodes are
shared exactly if their labels agree, so sharing is part of the value and comparing two
expressions for equality compares it too. `Expr.same` compares shape, keys and constants only.
-/

set_option autoImplicit false

namespace Patchbay

/-- The part of a compiled patch to which a node belongs. Copies count the nodes or edges of one
id in document order. -/
inductive Scope where
  | free
  | node (id : String) (copy : Nat)
  | channel
  | silence
  | orphan (id : String) (copy : Nat)
  | probe (edge : String) (copy : Nat)
  deriving DecidableEq, Repr

structure Label where
  scope : Scope
  index : Nat
  deriving DecidableEq, Repr

inductive Expr where
  | node (label : Label) (op : Op) (key : Option String) (children : List Expr)

namespace Expr

def label : Expr → Label
  | node l _ _ _ => l

def op : Expr → Op
  | node _ op _ _ => op

def key : Expr → Option String
  | node _ _ key _ => key

def children : Expr → List Expr
  | node _ _ _ cs => cs

/-- Whether two expressions are one shared node. -/
def identical (a b : Expr) : Bool := a.label = b.label

def const? (e : Expr) : Option Float32 :=
  match e.op with
  | .const v => some v
  | _ => none

mutual

/-- Equality of shape, operations and keys; labels are not looked at. -/
def same : Expr → Expr → Bool
  | node _ op key cs, node _ op' key' cs' => op.same op' && key == key' && sameAll cs cs'

def sameAll : List Expr → List Expr → Bool
  | [], [] => true
  | a :: as, b :: bs => same a b && sameAll as bs
  | _, _ => false

end

mutual

/-- Puts the nodes of an expression in front of those already met, children before their parent
and from left to right, each label once. The result lists the nodes from last to first. -/
def collect (met : List Expr) : Expr → List Expr
  | node l op key cs =>
    if met.any (·.label = l) then met else node l op key cs :: collectAll met cs

def collectAll (met : List Expr) : List Expr → List Expr
  | [] => met
  | c :: cs => collectAll (collect met c) cs

end

/-- The distinct nodes under some roots, children first. -/
def nodesOf (roots : List Expr) : List Expr := (collectAll [] roots).reverse

def nodes (e : Expr) : List Expr := nodesOf [e]

def nodeCount (e : Expr) : Nat := e.nodes.length

def tapsOf (nodes : List Expr) : List Tap := nodes.filterMap (·.op.tap?)

/-- The names of all taps under a node. -/
def tapNames (e : Expr) : List String := (tapsOf e.nodes).map Tap.name

mutual

/-- The text of an expression: a bare number for an unkeyed constant, otherwise operation, key
and children in parentheses. -/
def text : Expr → String
  | node _ op key cs =>
    match op, key with
    | .const v, none => NumberLayout.plain.single v
    | .const v, some k => "(const #" ++ k ++ " " ++ NumberLayout.plain.single v ++ ")"
    | op, none => "(" ++ op.text ++ textAll cs ++ ")"
    | op, some k => "(" ++ op.text ++ " #" ++ k ++ textAll cs ++ ")"

def textAll : List Expr → String
  | [] => ""
  | c :: cs => " " ++ text c ++ textAll cs

end

end Expr

/-- What flows into an inlet or out of an outlet. A literal never passed through an edge; whether
an inlet is connected is told by this tag alone, whatever the number. -/
inductive Signal where
  | literal (value : Float32)
  | expr (e : Expr)

namespace Signal

def literal? : Signal → Option Float32
  | literal v => some v
  | expr _ => none

def expr? : Signal → Option Expr
  | literal _ => none
  | expr e => some e

def isLiteral (s : Signal) : Bool := s.literal?.isSome

def isExpr (s : Signal) : Bool := s.expr?.isSome

end Signal

end Patchbay
