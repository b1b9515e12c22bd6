import Mathlib
import Patchbay.NodeType.Basic
import Patchbay.Proofs.Likeness

/-!
# Constructions in pairs

Two constructions are run side by side, each from a label of its own, and what they make is
related. The rules follow the operations a construction is put together from: what is done alike to
expressions that sound alike makes expressions that do, and a construction over numbers for ever
makes a number for ever.
-/

set_option autoImplicit false

namespace Patchbay

open Patchbay.Expr

variable {rate : Float32}

namespace Signal

/-- The same number, expressions that sound alike, or a number and an expression that is that number
for ever. -/
inductive Like (rate : Float32) : Signal → Signal → Prop
  | literal (v : Float32) : Like rate (.literal v) (.literal v)
  | expr {e e' : Expr} (h : Alike rate e e') : Like rate (.expr e) (.expr e')
  | connected {v : Float32} {e : Expr} (h : Expr.Steady rate v e) : Like rate (.literal v) (.expr e)

/-- A signal that is one number for ever. -/
def Steady (rate v : Float32) : Signal → Prop
  | .literal w => w = v
  | .expr e => Expr.Steady rate v e

end Signal

namespace Build

variable {α β γ δ : Type} {R : α → β → Prop} {S : γ → δ → Prop}

/-- From whatever labels they start, two constructions make things that are related. -/
def Relates (b : Build α) (b' : Build β) (R : α → β → Prop) : Prop := ∀ l l', R (b l).1 (b' l').1

theorem Relates.pure {a : α} {a' : β} (h : R a a') :
    Relates (Pure.pure a) (Pure.pure a') R :=
  fun _ _ => h

theorem Relates.bind {b : Build α} {b' : Build β} {f : α → Build γ} {f' : β → Build δ}
    (h : Relates b b' R) (hf : ∀ a a', R a a' → Relates (f a) (f' a') S) :
    Relates (b >>= f) (b' >>= f') S :=
  fun l l' => hf _ _ (h l l') _ _

theorem Relates.node {op : Op} {key key' : Option String} (hkey : op = .noise → key = key')
    {cs cs' : List Expr} (h : List.Forall₂ (Alike rate) cs cs') :
    Relates (Build.node op key cs) (Build.node op key' cs') (Alike rate) :=
  fun _ _ => alike_node hkey h _ _

/-- Whatever label it starts from, a construction makes what satisfies `P`. -/
def Yields (b : Build α) (P : α → Prop) : Prop := ∀ l, P (b l).1

theorem Yields.pure {a : α} {P : α → Prop} (h : P a) : Yields (Pure.pure a) P := fun _ => h

theorem Yields.bind {b : Build α} {f : α → Build γ} {P : α → Prop} {Q : γ → Prop} (h : Yields b P)
    (hf : ∀ a, P a → Yields (f a) Q) : Yields (b >>= f) Q :=
  fun l => hf _ (h l) _

theorem Yields.relates {b : Build α} {b' : Build β} {P : α → Prop} {Q : β → Prop} (h : Yields b P)
    (h' : Yields b' Q) (hr : ∀ a a', P a → Q a' → R a a') : Relates b b' R :=
  fun l l' => hr _ _ (h l) (h' l')

theorem Yields.keyedConst (rate : Float32) (key : String) (v : Float32) :
    Yields (keyedConst key v) (Expr.Steady rate v) :=
  fun l => steady_const l (some key) v

theorem Yields.lift {s : Signal} {v : Float32} (h : s.Steady rate v) :
    Yields (lift s) (Expr.Steady rate v) := by
  cases s with
  | literal w =>
    cases h
    exact fun l => steady_const l none v
  | expr e => exact fun _ => h

theorem Yields.liftKeyed (key : String) {s : Signal} {v : Float32} (h : s.Steady rate v) :
    Yields (liftKeyed key s) (Expr.Steady rate v) := by
  cases s with
  | literal w =>
    cases h
    exact keyedConst rate key v
  | expr e => exact fun _ => h

theorem Yields.binary (f : BinaryOp) {a b : Signal} {v w : Float32} (ha : a.Steady rate v)
    (hb : b.Steady rate w) : Yields (binary f a b) (Expr.Steady rate (f.apply v w)) := by
  rw [Build.binary, Build.apply, List.mapM_cons, List.mapM_cons, List.mapM_nil]
  simp only [bind_assoc, pure_bind]
  exact .bind (.lift ha) fun a ha => .bind (.lift hb) fun b hb l => steady_binary ha hb f l none

theorem Relates.liftKeyed (key : String) {s s' : Signal} (h : Signal.Like rate s s') :
    Relates (liftKeyed key s) (liftKeyed key s') (Alike rate) := by
  cases h with
  | literal v => exact .node (by simp) .nil
  | expr h => exact .pure h
  | connected h =>
    exact (Yields.keyedConst rate key _).relates (.pure h) fun _ _ hv hw => hv.alike hw

theorem Relates.lift {s s' : Signal} (h : Signal.Like rate s s') :
    Relates (lift s) (lift s') (Alike rate) := by
  cases h with
  | literal v => exact .node (by simp) .nil
  | expr h => exact .pure h
  | connected h => exact fun l _ => (steady_const l none _).alike h

theorem Relates.lifts {args args' : List Signal} (h : List.Forall₂ (Signal.Like rate) args args') :
    Relates (args.mapM Build.lift) (args'.mapM Build.lift) (List.Forall₂ (Alike rate)) := by
  induction h with
  | nil => exact .pure .nil
  | cons hs _ ih =>
    rw [List.mapM_cons, List.mapM_cons]
    exact .bind (.lift hs) fun e e' he => .bind ih fun es es' hes => .pure (.cons he hes)

theorem Relates.apply {op : Op} {args args' : List Signal} (hop : op ≠ .noise)
    (h : List.Forall₂ (Signal.Like rate) args args') :
    Relates (apply op args) (apply op args') (Alike rate) :=
  .bind (.lifts h) fun _ _ hes => .node (fun h => absurd h hop) hes

theorem Relates.keyedConst (rate : Float32) (key key' : String) (v : Float32) :
    Relates (keyedConst key v) (Build.keyedConst key' v) (Alike rate) :=
  .node (by simp) .nil

theorem Relates.binary (f : BinaryOp) {a a' b b' : Signal} (ha : Signal.Like rate a a')
    (hb : Signal.Like rate b b') : Relates (binary f a b) (binary f a' b') (Alike rate) :=
  .apply (by simp) (.cons ha (.cons hb .nil))

theorem Relates.oscillator (w : Waveform) {a a' : Signal} (h : Signal.Like rate a a') :
    Relates (oscillator w a) (oscillator w a') (Alike rate) :=
  .apply (by simp) (.cons h .nil)

theorem Relates.filter (mode : FilterMode) {a a' b b' c c' : Signal} (ha : Signal.Like rate a a')
    (hb : Signal.Like rate b b') (hc : Signal.Like rate c c') :
    Relates (filter mode a b c) (filter mode a' b' c') (Alike rate) :=
  .apply (by simp) (.cons ha (.cons hb (.cons hc .nil)))

theorem Relates.delay (maxMs : Float32) {a a' b b' c c' : Signal} (ha : Signal.Like rate a a')
    (hb : Signal.Like rate b b') (hc : Signal.Like rate c c') :
    Relates (delay maxMs a b c) (delay maxMs a' b' c') (Alike rate) :=
  .apply (by simp) (.cons ha (.cons hb (.cons hc .nil)))

theorem Relates.steps (values : List Float32) (hold loops : Bool) {a a' b b' : Signal}
    (ha : Signal.Like rate a a') (hb : Signal.Like rate b b') :
    Relates (steps values hold loops a b) (steps values hold loops a' b') (Alike rate) :=
  .apply (by simp) (.cons ha (.cons hb .nil))

theorem Relates.tap (t : Tap) {a a' : Signal} (h : Signal.Like rate a a') :
    Relates (tap t a) (tap t a') (Alike rate) :=
  .apply (by simp) (.cons h .nil)

end Build

namespace NodeBuild

variable {α β γ δ : Type} {R : α → β → Prop} {S : γ → δ → Prop}

/-- Two constructions of nodes do not fail and make things that are related. -/
def Relates (b : NodeBuild α) (b' : NodeBuild β) (R : α → β → Prop) : Prop :=
  Build.Relates b.run b'.run fun r r' => ∃ a a', r = .ok a ∧ r' = .ok a' ∧ R a a'

theorem Relates.pure {a : α} {a' : β} (h : R a a') : Relates (Pure.pure a) (Pure.pure a') R :=
  Build.Relates.pure ⟨a, a', rfl, rfl, h⟩

theorem Relates.bind {b : NodeBuild α} {b' : NodeBuild β} {f : α → NodeBuild γ}
    {f' : β → NodeBuild δ} (h : Relates b b' R) (hf : ∀ a a', R a a' → Relates (f a) (f' a') S) :
    Relates (b >>= f) (b' >>= f') S := by
  change Build.Relates (b.run >>= ExceptT.bindCont f) (b'.run >>= ExceptT.bindCont f') _
  refine .bind h fun r r' hr => ?_
  obtain ⟨a, a', rfl, rfl, hr⟩ := hr
  exact hf a a' hr

theorem Relates.lift {b : Build α} {b' : Build β} (h : b.Relates b' R) :
    Relates (ExceptT.lift b) (ExceptT.lift b') R := by
  change Build.Relates (b >>= fun a => Pure.pure (Except.ok a))
    (b' >>= fun a => Pure.pure (Except.ok a)) _
  exact .bind h fun a a' hr => .pure ⟨a, a', rfl, rfl, hr⟩

/-- A construction of a node does not fail and makes what satisfies `P`. -/
def Yields (b : NodeBuild α) (P : α → Prop) : Prop :=
  Build.Yields b.run fun r => ∃ a, r = .ok a ∧ P a

theorem Yields.pure {a : α} {P : α → Prop} (h : P a) : Yields (Pure.pure a) P :=
  Build.Yields.pure ⟨a, rfl, h⟩

theorem Yields.bind {b : NodeBuild α} {f : α → NodeBuild γ} {P : α → Prop} {Q : γ → Prop}
    (h : Yields b P) (hf : ∀ a, P a → Yields (f a) Q) : Yields (b >>= f) Q := by
  change Build.Yields (b.run >>= ExceptT.bindCont f) _
  refine .bind h fun r hr => ?_
  obtain ⟨a, rfl, hr⟩ := hr
  exact hf a hr

theorem Yields.lift {b : Build α} {P : α → Prop} (h : b.Yields P) : Yields (ExceptT.lift b) P := by
  change Build.Yields (b >>= fun a => Pure.pure (Except.ok a)) _
  exact .bind h fun a hr => .pure ⟨a, rfl, hr⟩

theorem Yields.relates {b : NodeBuild α} {b' : NodeBuild β} {P : α → Prop} {Q : β → Prop}
    (h : Yields b P) (h' : Yields b' Q) (hr : ∀ a a', P a → Q a' → R a a') : Relates b b' R := by
  intro l l'
  obtain ⟨a, ha, hP⟩ := h l
  obtain ⟨a', ha', hQ⟩ := h' l'
  exact ⟨a, a', ha, ha', hr a a' hP hQ⟩

end NodeBuild

end Patchbay
