import Patchbay.Expr.Op

/-!
# Probe events and their listeners

Taps report under a kind and a name. A listener subscribes to such a pair; an event goes to the
listeners of its own pair in the order of their subscriptions and counts once, however many hear
it. Events nobody listens to are not built.
-/

set_option autoImplicit false

namespace Patchbay

inductive ProbeKind where
  | meter
  | scope
  | fft
  deriving DecidableEq, Repr

namespace ProbeKind

def name : ProbeKind → String
  | meter => "meter"
  | scope => "scope"
  | fft => "fft"

def ofName? : String → Option ProbeKind
  | "meter" => some meter
  | "scope" => some scope
  | "fft" => some fft
  | _ => none

end ProbeKind

def Tap.kind : Tap → ProbeKind
  | meter _ => .meter
  | scope _ _ => .scope
  | fft _ _ => .fft

/-- What a tap is listened to by. -/
structure ProbeTag where
  kind : ProbeKind
  name : String
  deriving DecidableEq, Repr

def Tap.tag (t : Tap) : ProbeTag := ⟨t.kind, t.name⟩

inductive ProbeEvent where
  /-- The extremes of one block. -/
  | meter (name : String) (min max : Float32)
  /-- One full window, oldest sample first. -/
  | scope (name : String) (samples : List Float32)
  /-- The spectrum of one full window. -/
  | fft (name : String) (magnitudes : List Float32)

namespace ProbeEvent

def tag : ProbeEvent → ProbeTag
  | meter n _ _ => ⟨.meter, n⟩
  | scope n _ => ⟨.scope, n⟩
  | fft n _ => ⟨.fft, n⟩

end ProbeEvent

/-- The listeners of one tag, first subscribed first. -/
structure Subscription where
  tag : ProbeTag
  listeners : List Nat
  deriving DecidableEq, Repr

structure ProbeBus where
  subscriptions : List Subscription
  delivered : Nat
  deriving DecidableEq, Repr

/-- An event that reached a listener. -/
structure Delivery where
  listener : Nat
  event : ProbeEvent

namespace ProbeBus

def empty : ProbeBus := ⟨[], 0⟩

def find? (b : ProbeBus) (tag : ProbeTag) : Option Subscription :=
  b.subscriptions.find? (·.tag = tag)

def wants (b : ProbeBus) (tag : ProbeTag) : Bool := (b.find? tag).isSome

def addListener (listener : Nat) (tag : ProbeTag) : List Subscription → List Subscription
  | [] => [⟨tag, [listener]⟩]
  | s :: rest =>
    if s.tag = tag then { s with listeners := s.listeners ++ [listener] } :: rest
    else s :: addListener listener tag rest

def subscribe (b : ProbeBus) (tag : ProbeTag) (listener : Nat) : ProbeBus :=
  { b with subscriptions := addListener listener tag b.subscriptions }

/-- Drops every listener of a tag. -/
def unsubscribe (b : ProbeBus) (tag : ProbeTag) : ProbeBus :=
  { b with subscriptions := b.subscriptions.filter (·.tag ≠ tag) }

def clear (b : ProbeBus) : ProbeBus := { b with subscriptions := [] }

/-- The number of tags that are listened to. -/
def subscriptionCount (b : ProbeBus) : Nat := b.subscriptions.length

def emit (b : ProbeBus) (event : ProbeEvent) : List Delivery × ProbeBus :=
  match b.find? event.tag with
  | some s => (s.listeners.map (⟨·, event⟩), { b with delivered := b.delivered + 1 })
  | none => ([], b)

/-- Builds the event only if its tag is wanted. The built event is routed by its own tag. -/
def emitWith (b : ProbeBus) (tag : ProbeTag) (build : String → ProbeEvent) :
    List Delivery × ProbeBus :=
  if b.wants tag then b.emit (build tag.name) else ([], b)

end ProbeBus

end Patchbay
