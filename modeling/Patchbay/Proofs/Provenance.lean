import Mathlib
import Patchbay.NodeType.Basic
import Patchbay.Proofs.Address
import Patchbay.Proofs.Stream

/-!
# What constructions make

A construction adds nodes under the labels of its scope to those it is given. The nodes at hand
stay coherent, everything under them is among them and each of them is well formed. Addresses are
handed out from a list, each to one node at most. The rules here follow the operations a
construction is put together from.
-/

set_option autoImplicit false

namespace Patchbay

open Patchbay.Expr

structure Expr.Formed (e : Expr) : Prop where
  arity : e.children.length = e.op.arity
  window : e.op.HasWindow

structure Grown (known : Set Expr) : Prop where
  closed : ∀ e ∈ known, ∀ c ∈ e.children, c ∈ known
  coherent : Coherent known
  formed : ∀ e ∈ known, e.Formed
  /-- Within a scope no two nodes have one address. -/
  addressed : ∀ e ∈ known, ∀ f ∈ known, e.label.scope = f.label.scope →
    ∀ a, e.address? = some a → f.address? = some a → e = f

/-- In the middle of a construction the labels from `next` on are free, and so are the addresses
in `names`. -/
structure Supply (known : Set Expr) (names : List Address) (next : Label) : Prop
    extends Grown known where
  free : ∀ e ∈ known, e.label.scope = next.scope → e.label.index < next.index
  nodup : names.Nodup
  unused : ∀ e ∈ known, e.label.scope = next.scope → ∀ a ∈ names, e.address? ≠ some a

/-- Nothing goes, and what comes belongs to a scope and has its address from `names`. -/
structure Extends (scope : Scope) (names : List Address) (known known' : Set Expr) : Prop where
  subset : known ⊆ known'
  fresh : ∀ e ∈ known', e ∈ known ∨
    e.label.scope = scope ∧ ∀ a, e.address? = some a → a ∈ names

theorem extends_refl (scope : Scope) (names : List Address) (known : Set Expr) :
    Extends scope names known known :=
  ⟨subset_rfl, fun _ he => .inl he⟩

theorem extends_trans {scope : Scope} {names left : List Address} {a b c : Set Expr}
    (h : Extends scope names a b) (h' : Extends scope left b c) (hl : left ⊆ names) :
    Extends scope names a c :=
  ⟨h.subset.trans h'.subset, fun e he => (h'.fresh e he).elim (h.fresh e) fun hnew =>
    .inr ⟨hnew.1, fun n ha => hl (hnew.2 n ha)⟩⟩

theorem grown_empty : Grown ∅ :=
  ⟨fun _ he => he.elim, Set.injOn_empty _, fun _ he => he.elim, fun _ he => he.elim⟩

mutual

theorem parts_of_grown {known : Set Expr} (h : Grown known) (e : Expr) (he : e ∈ known) :
    ∀ f ∈ parts e, f ∈ known := by
  obtain ⟨l, op, key, cs⟩ := e
  intro f hf
  rw [parts, List.mem_cons] at hf
  rcases hf with rfl | hf
  · exact he
  · exact partsAll_of_grown h cs (h.closed _ he) f hf

theorem partsAll_of_grown {known : Set Expr} (h : Grown known) (cs : List Expr)
    (hc : ∀ c ∈ cs, c ∈ known) : ∀ f ∈ partsAll cs, f ∈ known := by
  match cs with
  | [] => simp [partsAll]
  | c :: cs =>
    intro f hf
    rw [partsAll, List.mem_append] at hf
    rcases hf with hf | hf
    · exact parts_of_grown h c (hc c (by simp)) f hf
    · exact partsAll_of_grown h cs (fun d hd => hc d (by simp [hd])) f hf

end

theorem coherent_of_grown {known : Set Expr} (h : Grown known) {roots : List Expr}
    (hr : ∀ e ∈ roots, e ∈ known) : Coherent (under roots) :=
  h.coherent.mono (partsAll_of_grown h roots hr)

/-- An expression that flows is one of those at hand. -/
def Signal.In (known : Set Expr) : Signal → Prop
  | .literal _ => True
  | .expr e => e ∈ known

theorem Signal.In.mono {known known' : Set Expr} (h : known ⊆ known') {s : Signal}
    (hs : s.In known) : s.In known' := by
  cases s with
  | literal v => trivial
  | expr e => exact h hs

namespace Build

variable {α β : Type} {known : Set Expr} {names left rest : List Address}

/-- From the nodes in `known` and the addresses in `names` a construction makes something that
satisfies `post` among the nodes that are there after it. The addresses in `left` are still free
then. -/
def Makes (known : Set Expr) (names : List Address) (b : Build α) (left : List Address)
    (post : Set Expr → α → Prop) : Prop :=
  ∀ next, Supply known names next → ∃ known', Extends next.scope names known known' ∧
    Supply known' left (b next).2 ∧ left ⊆ names ∧ (b next).2.scope = next.scope ∧
    post known' (b next).1

theorem Makes.pure {post : Set Expr → α → Prop} {a : α} (h : post known a) :
    Makes known names (Pure.pure a) names post :=
  fun _ hs => ⟨known, extends_refl _ _ _, hs, fun _ ha => ha, rfl, h⟩

theorem Makes.bind {b : Build α} {f : α → Build β} {mid : Set Expr → α → Prop}
    {post : Set Expr → β → Prop} (hb : Makes known names b left mid)
    (hf : ∀ known', known ⊆ known' → ∀ a, mid known' a → Makes known' left (f a) rest post) :
    Makes known names (b >>= f) rest post := by
  intro next hs
  obtain ⟨k₁, h₁, hs₁, hleft, hscope, hmid⟩ := hb next hs
  obtain ⟨k₂, h₂, hs₂, hrest, hscope', hpost⟩ := hf k₁ h₁.subset _ hmid _ hs₁
  rw [hscope] at h₂ hscope'
  exact ⟨k₂, extends_trans h₁ h₂ hleft, hs₂, fun a ha => hleft (hrest ha), hscope', hpost⟩

theorem Makes.imp {b : Build α} {post post' : Set Expr → α → Prop}
    (h : Makes known names b left post) (hp : ∀ known' a, post known' a → post' known' a) :
    Makes known names b left post' := by
  intro next hs
  obtain ⟨k, hk, hs', hleft, hscope, hpost⟩ := h next hs
  exact ⟨k, hk, hs', hleft, hscope, hp k _ hpost⟩

/-- An address that is not needed. -/
theorem Makes.skip {b : Build α} {post : Set Expr → α → Prop} {a : Address}
    (h : Makes known names b left post) : Makes known (a :: names) b left post := by
  intro next hs
  have hnames : ∀ n ∈ names, n ∈ a :: names := fun n hn => List.mem_cons_of_mem a hn
  obtain ⟨k, hk, hs', hleft, hscope, hpost⟩ := h next
    ⟨hs.toGrown, hs.free, (List.nodup_cons.1 hs.nodup).2,
      fun e he hscope n hn => hs.unused e he hscope n (hnames n hn)⟩
  exact ⟨k, ⟨hk.subset, fun e he => (hk.fresh e he).imp_right fun hnew =>
    ⟨hnew.1, fun n ha => hnames n (hnew.2 n ha)⟩⟩, hs', fun n hn => hnames n (hleft hn), hscope,
    hpost⟩

theorem Makes.drop {b : Build α} {post : Set Expr → α → Prop}
    (h : Makes known names b left post) : Makes known names b [] post := by
  intro next hs
  obtain ⟨k, hk, hs', -, hscope, hpost⟩ := h next hs
  exact ⟨k, hk, ⟨hs'.toGrown, hs'.free, List.nodup_nil, by simp⟩, by simp, hscope, hpost⟩

theorem Makes.node {op : Op} {key : Option String} {children : List Expr}
    (hc : ∀ c ∈ children, c ∈ known) (ha : children.length = op.arity) (hw : op.HasWindow)
    (hn : (op.address? key).toList ++ left = names) :
    Makes known names (Build.node op key children) left fun known' e => e ∈ known' := by
  subst hn
  intro next hs
  have hnew : ∀ e ∈ known, e.label ≠ next := by
    rintro e he rfl
    exact lt_irrefl _ (hs.free e he rfl)
  have hown : ∀ a, op.address? key = some a → a ∈ (op.address? key).toList ++ left := by
    intro a ha
    simp [ha]
  have hother : ∀ e ∈ known, e.label.scope = next.scope → ∀ a, op.address? key = some a →
      e.address? ≠ some a := fun e he hscope a ha => hs.unused e he hscope a (hown a ha)
  obtain ⟨-, hnodup, hdisjoint⟩ := List.nodup_append.1 hs.nodup
  refine ⟨insert (.node next op key children) known,
    ⟨Set.subset_insert _ _, fun e he => ?_⟩,
    ⟨⟨fun e he c hec => ?_, ?_, fun e he => ?_, fun e he f hf hscope a hea hfa => ?_⟩,
      fun e he hscope => ?_, hnodup, fun e he hscope a ha => ?_⟩,
    fun a ha => List.mem_append_right _ ha, rfl, Set.mem_insert _ _⟩
  · rcases he with rfl | he
    · exact .inr ⟨rfl, hown⟩
    · exact .inl he
  · rcases he with rfl | he
    · exact .inr (hc c hec)
    · exact .inr (hs.closed e he c hec)
  · rw [Coherent, Set.injOn_insert fun hmem => hnew _ hmem rfl]
    exact ⟨hs.coherent, fun ⟨e, he, hl⟩ => hnew e he hl⟩
  · rcases he with rfl | he
    · exact ⟨ha, hw⟩
    · exact hs.formed e he
  · rcases he with rfl | he <;> rcases hf with rfl | hf
    · rfl
    · exact absurd hfa (hother f hf hscope.symm a hea)
    · exact absurd hea (hother e he hscope a hfa)
    · exact hs.addressed e he f hf hscope a hea hfa
  · rcases he with rfl | he
    · exact Nat.lt_succ_self _
    · exact Nat.lt_succ_of_lt (hs.free e he hscope)
  · rcases he with rfl | he
    · intro hea
      exact hdisjoint a (Option.mem_toList.2 hea) a ha rfl
    · exact hs.unused e he hscope a (List.mem_append_right _ ha)

theorem Makes.constant {v : Float32} :
    Makes known names (constant v) names fun known' e => e ∈ known' :=
  .node (by simp) rfl trivial rfl

theorem Makes.keyedConst {key : String} {v : Float32} :
    Makes known (.key key :: names) (keyedConst key v) names fun known' e => e ∈ known' :=
  .node (by simp) rfl trivial rfl

theorem Makes.lift {s : Signal} (h : s.In known) :
    Makes known names (lift s) names fun known' e => e ∈ known' := by
  cases s with
  | literal v => exact .constant
  | expr e => exact .pure h

theorem Makes.liftKeyed {key : String} {s : Signal} (h : s.In known) :
    Makes known (.key key :: names) (liftKeyed key s) names fun known' e => e ∈ known' := by
  cases s with
  | literal v => exact .keyedConst
  | expr e => exact .skip (.pure h)

theorem Makes.lifts {args : List Signal} (h : ∀ s ∈ args, s.In known) :
    Makes known names (args.mapM Build.lift) names fun known' es =>
      es.length = args.length ∧ ∀ e ∈ es, e ∈ known' := by
  induction args generalizing known with
  | nil => exact .pure ⟨rfl, by simp⟩
  | cons s args ih =>
    rw [List.mapM_cons]
    refine .bind (.lift (h s (by simp))) fun k₁ h₁ e he => ?_
    refine .bind (ih fun s hs => (h s (by simp [hs])).mono h₁) fun k₂ h₂ es hes => ?_
    refine .pure ⟨by simp [hes.1], fun f hf => ?_⟩
    rcases List.mem_cons.1 hf with rfl | hf
    · exact h₂ he
    · exact hes.2 f hf

theorem Makes.apply {op : Op} {args : List Signal} (h : ∀ s ∈ args, s.In known)
    (ha : args.length = op.arity) (hw : op.HasWindow)
    (hn : (op.address? none).toList ++ left = names) :
    Makes known names (apply op args) left fun known' e => e ∈ known' := by
  refine .bind (.lifts h) fun k₁ h₁ es hes => ?_
  exact .node hes.2 (hes.1.trans ha) hw hn

theorem Makes.binary {f : BinaryOp} {a b : Signal} (ha : a.In known) (hb : b.In known) :
    Makes known names (binary f a b) names fun known' e => e ∈ known' :=
  .apply (by simp [ha, hb]) rfl trivial rfl

theorem Makes.oscillator {w : Waveform} {frequency : Signal} (h : frequency.In known) :
    Makes known names (oscillator w frequency) names fun known' e => e ∈ known' :=
  .apply (by simp [h]) rfl trivial rfl

theorem Makes.noise {key : String} :
    Makes known names (noise key) names fun known' e => e ∈ known' :=
  .node (by simp) rfl trivial rfl

theorem Makes.filter {mode : FilterMode} {cutoff q input : Signal} (hc : cutoff.In known)
    (hq : q.In known) (hi : input.In known) :
    Makes known names (filter mode cutoff q input) names fun known' e => e ∈ known' :=
  .apply (by simp [hc, hq, hi]) rfl trivial rfl

theorem Makes.delay {maxMs : Float32} {time feedback input : Signal} (ht : time.In known)
    (hf : feedback.In known) (hi : input.In known) :
    Makes known names (delay maxMs time feedback input) names fun known' e => e ∈ known' :=
  .apply (by simp [ht, hf, hi]) rfl trivial rfl

theorem Makes.envelope {attack decay sustain release gate : Signal} (ha : attack.In known)
    (hd : decay.In known) (hs : sustain.In known) (hr : release.In known) (hg : gate.In known) :
    Makes known names (envelope attack decay sustain release gate) names
      fun known' e => e ∈ known' :=
  .apply (by simp [ha, hd, hs, hr, hg]) rfl trivial rfl

theorem Makes.steps {values : List Float32} {hold loops : Bool} {trigger reset : Signal}
    (ht : trigger.In known) (hr : reset.In known) :
    Makes known names (steps values hold loops trigger reset) names fun known' e => e ∈ known' :=
  .apply (by simp [ht, hr]) rfl trivial rfl

theorem Makes.meter {name : String} {input : Signal} (h : input.In known) :
    Makes known (.tag ⟨.meter, name⟩ :: names) (meter name input) names
      fun known' e => e ∈ known' :=
  .apply (by simp [h]) rfl trivial rfl

theorem Makes.scope {name : String} {size : Nat} {input : Signal} (h : input.In known)
    (hsize : 0 < size ∧ HasRoom size) :
    Makes known (.tag ⟨.scope, name⟩ :: names) (scope name size input) names
      fun known' e => e ∈ known' :=
  .apply (by simp [h]) rfl hsize rfl

theorem Makes.fft {name : String} {size : Nat} {input : Signal} (h : input.In known)
    (hsize : 0 < size ∧ HasRoom size) :
    Makes known (.tag ⟨.fft, name⟩ :: names) (fft name size input) names
      fun known' e => e ∈ known' :=
  .apply (by simp [h]) rfl hsize rfl

theorem Makes.within {b : Build α} {post : Set Expr → α → Prop}
    (h : Makes known names b left post) (hg : Grown known) (hn : names.Nodup) (scope : Scope)
    (hfree : ∀ e ∈ known, e.label.scope ≠ scope) :
    ∃ known', Extends scope names known known' ∧ Grown known' ∧ post known' (b.within scope) := by
  obtain ⟨known', hext, hs, -, -, hpost⟩ :=
    h ⟨scope, 0⟩ ⟨hg, fun e he hscope => absurd hscope (hfree e he), hn,
      fun e he hscope => absurd hscope (hfree e he)⟩
  exact ⟨known', hext, hs.toGrown, hpost⟩

end Build

namespace NodeBuild

variable {α β : Type} {known : Set Expr} {names left rest : List Address}

/-- The construction of a node does not fail and makes something that satisfies `post`. -/
def Makes (known : Set Expr) (names : List Address) (b : NodeBuild α) (left : List Address)
    (post : Set Expr → α → Prop) : Prop :=
  Build.Makes known names b.run left fun known' r => ∃ a, r = .ok a ∧ post known' a

theorem Makes.pure {post : Set Expr → α → Prop} {a : α} (h : post known a) :
    Makes known names (Pure.pure a) names post :=
  Build.Makes.pure ⟨a, rfl, h⟩

theorem Makes.bind {b : NodeBuild α} {f : α → NodeBuild β} {mid : Set Expr → α → Prop}
    {post : Set Expr → β → Prop} (hb : Makes known names b left mid)
    (hf : ∀ known', known ⊆ known' → ∀ a, mid known' a → Makes known' left (f a) rest post) :
    Makes known names (b >>= f) rest post := by
  change Build.Makes known names (b.run >>= ExceptT.bindCont f) rest _
  refine .bind hb fun k₁ h₁ r hr => ?_
  obtain ⟨a, rfl, hmid⟩ := hr
  exact hf k₁ h₁ a hmid

theorem Makes.lift {b : Build α} {post : Set Expr → α → Prop} (h : b.Makes known names left post) :
    Makes known names (ExceptT.lift b) left post := by
  change Build.Makes known names (b >>= fun a => Pure.pure (Except.ok a)) left _
  exact .bind h fun k₁ h₁ a ha => .pure ⟨a, rfl, ha⟩

theorem Makes.skip {b : NodeBuild α} {post : Set Expr → α → Prop} {a : Address}
    (h : Makes known names b left post) : Makes known (a :: names) b left post :=
  Build.Makes.skip h

theorem Makes.drop {b : NodeBuild α} {post : Set Expr → α → Prop}
    (h : Makes known names b left post) : Makes known names b [] post :=
  Build.Makes.drop h

end NodeBuild

namespace Inputs

variable {known : Set Expr} {names : List Address}

/-- There is a signal for each of some inlets. -/
def Offers (known : Set Expr) (inlets : List String) (i : Inputs) : Prop :=
  ∀ name ∈ inlets, ∃ s, i.signals.find? name = some s ∧ s.In known

theorem Offers.mono {known' : Set Expr} {inlets : List String} {i : Inputs}
    (h : i.Offers known inlets) (hk : known ⊆ known') : i.Offers known' inlets := by
  intro name hn
  obtain ⟨s, hf, hs⟩ := h name hn
  exact ⟨s, hf, hs.mono hk⟩

theorem Offers.get {inlets : List String} {i : Inputs} (h : i.Offers known inlets) {name : String}
    (hn : name ∈ inlets) :
    NodeBuild.Makes known names (i.get name) names fun known' s => s.In known' := by
  obtain ⟨s, hf, hs⟩ := h name hn
  have hget : i.get name = Pure.pure s := by
    funext l
    rw [Inputs.get, Inputs.signal, hf]
    rfl
  rw [hget]
  exact .pure hs

theorem Offers.keyed {inlets : List String} {i : Inputs} (h : i.Offers known inlets)
    {name id : String} (hn : name ∈ inlets) :
    NodeBuild.Makes known (.key (id ++ (":" ++ name)) :: names) (i.keyed name id) names
      fun known' e => e ∈ known' := by
  rw [← String.append_assoc]
  exact .bind (h.get hn) fun _ _ _ hs => .lift (.liftKeyed hs)

end Inputs

end Patchbay
