import Mathlib
import Patchbay.Proofs.NodeOrder
import Patchbay.Proofs.Target

/-!
# What the instrumentation adds

A chain of sums on the left channel whose terms have a weight of zero, each in a scope of its own.
With that every address in a target can be traced to what it was given to: a node, the sink, an
orphan or an edge.
-/

set_option autoImplicit false

namespace Patchbay

open Patchbay.Expr

variable {known : Set Expr} {names left : List Address}

def Scope.Injected : Scope → Prop
  | .orphan _ _ => True
  | .probe _ _ => True
  | _ => False

instance : DecidablePred Scope.Injected
  | .orphan _ _ => isTrue trivial
  | .probe _ _ => isTrue trivial
  | .free => isFalse id
  | .node _ _ => isFalse id
  | .channel => isFalse id
  | .silence => isFalse id

/-- A channel with silenced terms added to it. -/
inductive Muted (base : Expr) : Expr → Prop
  | base : Muted base base
  | term (scope : Scope) (injected : scope.Injected) (i j k : Nat) (key : String)
      (left signal : Expr) (muted : Muted base left) :
      Muted base (.node ⟨scope, k⟩ (.binary .add) none [left,
        .node ⟨scope, j⟩ (.binary .mul) none [.node ⟨scope, i⟩ (.const 0.0) (some key) [], signal]])

namespace Instrument

open Build (Makes)

/-- A channel on its way through the instrumentation. -/
structure Injected.Sound (known : Set Expr) (base : Expr) (x : Injected) : Prop where
  grown : Grown known
  mem : x.channel ∈ known
  muted : Muted base x.channel

theorem zeroGain_makes (key : String) {signal : Expr} (h : signal ∈ known) :
    (zeroGain key signal).Makes known (.key key :: names) names fun known' e => e ∈ known' := by
  refine .bind .keyedConst fun k₁ h₁ zero hz => ?_
  exact .binary hz (h₁ h)

theorem edgeProbe_makes (edge : String) {signal : Expr} (h : signal ∈ known) :
    (edgeProbe edge signal).Makes known (edgeSlots.map (Slot.of edge)) []
      fun known' e => e ∈ known' := by
  refine .bind (.meter h) fun k₁ h₁ metered hm => ?_
  refine .bind (.scope hm (by decide)) fun k₂ h₂ window hw => ?_
  exact zeroGain_makes _ hw

theorem addTerm_spec {scope : Scope} {base : Expr} {term : Build Expr} (hg : Grown known)
    (hb : base ∈ known) (ht : term.Makes known names left fun known' e => e ∈ known')
    (hn : names.Nodup) (hfree : ∀ e ∈ known, e.label.scope ≠ scope) :
    ∃ known', Extends scope names known known' ∧ Grown known' ∧
      addTerm scope base term ∈ known' := by
  have hmakes : Makes known names (do
      let term ← term
      Build.binary .add (.expr base) (.expr term)) left fun known' e => e ∈ known' :=
    .bind ht fun k₁ h₁ e he => .binary (h₁ hb) he
  exact hmakes.within hg hn scope hfree

theorem firstOutlet?_within {registry : Registry} {compiled : OutletMap} {n : Node} {e : Expr}
    (hc : compiled.Within known) (h : firstOutlet? registry compiled n = some e) : e ∈ known := by
  simp only [firstOutlet?, Option.bind_eq_bind, Option.bind_eq_some_iff] at h
  obtain ⟨t, -, outlet, -, o, ho, s, hs, he⟩ := h
  obtain ⟨f, hf, rfl⟩ := hc _ o ho _ s hs
  cases he
  exact hf

/-- The copies of an id that have been used are those counted so far. -/
def Numbered (tag : String → Nat → Scope) (earlier : List String) (known : Set Expr) : Prop :=
  ∀ e ∈ known, ∀ id copy, e.label.scope = tag id copy → copy < copyOf earlier id

variable {tag : String → Nat → Scope} {earlier : List String} {base : Expr}

theorem Numbered.skip (h : Numbered tag earlier known) (id : String) :
    Numbered tag (id :: earlier) known := by
  intro e he id' copy hscope
  have := h e he id' copy hscope
  simp only [copyOf, List.count_cons] at this ⊢
  omega

theorem Injected.Sound.add {x : Injected} (h : x.Sound known base)
    (hn : Numbered tag earlier known) (id : String) (count : Nat) {term : Build Expr}
    (htag : ∀ id copy id' copy', tag id copy = tag id' copy' → id = id' ∧ copy = copy')
    (hnames : names.Nodup) (hterm : term.Makes known names left fun known' e => e ∈ known')
    (hmuted : Muted base (addTerm (tag id (copyOf earlier id)) x.channel term)) :
    ∃ known', Extends (tag id (copyOf earlier id)) names known known' ∧
      Numbered tag (id :: earlier) known' ∧
      Sound known' base ⟨addTerm (tag id (copyOf earlier id)) x.channel term, count⟩ := by
  obtain ⟨known', hext, hg, hmem⟩ := addTerm_spec h.grown h.mem hterm hnames fun e he hscope =>
    lt_irrefl _ (hn e he _ _ hscope)
  refine ⟨known', hext, fun e he id' copy hscope => ?_, hg, hmem, hmuted⟩
  rcases hext.fresh e he with he | ⟨he, -⟩
  · exact hn.skip id e he id' copy hscope
  · obtain ⟨rfl, rfl⟩ := htag _ _ _ _ (he.symm.trans hscope)
    simp [copyOf]

/-- A node in a scope of one of some owners, with an address from the slots it has there. -/
def Owned (tag : String → Nat → Scope) (slots : List Slot) (owners : List String)
    (earlier : List String) (e : Expr) : Prop :=
  ∃ id ∈ owners, ∃ copy < copyOf (owners.reverse ++ earlier) id, e.label.scope = tag id copy ∧
    ∀ a, e.address? = some a → a ∈ slots.map (Slot.of id)

theorem Owned.cons {slots : List Slot} {owners : List String} {id : String} {e : Expr}
    (h : Owned tag slots owners (id :: earlier) e) : Owned tag slots (id :: owners) earlier e := by
  obtain ⟨id', hid, copy, hcopy, hrest⟩ := h
  exact ⟨id', List.mem_cons_of_mem _ hid, copy, by simpa using hcopy, hrest⟩

theorem Owned.head {slots : List Slot} (owners : List String) {id : String} {known' : Set Expr}
    (h : Extends (tag id (copyOf earlier id)) (slots.map (Slot.of id)) known known') {e : Expr}
    (he : e ∈ known') : e ∈ known ∨ Owned tag slots (id :: owners) earlier e := by
  refine (h.fresh e he).imp_right fun hnew => ⟨id, by simp, _, ?_, hnew⟩
  simp only [copyOf, List.count_append, List.count_reverse, List.count_cons_self]
  omega

theorem injectOrphans_spec (registry : Registry) {compiled : OutletMap}
    (nodes : List Node) {x : Injected} (hc : compiled.Within known) (h : x.Sound known base)
    (hn : Numbered .orphan earlier known) :
    ∃ known', known ⊆ known' ∧ (injectOrphans registry compiled earlier nodes x).Sound known' base ∧
      ∀ e ∈ known', e ∈ known ∨ Owned .orphan orphanSlots (nodes.map Node.id) earlier e := by
  induction nodes generalizing known earlier x with
  | nil => exact ⟨known, subset_rfl, h, fun e he => .inl he⟩
  | cons n nodes ih =>
    rw [injectOrphans]
    cases hf : firstOutlet? registry compiled n with
    | none =>
      obtain ⟨k, hk, hs, hnew⟩ := ih hc h (hn.skip n.id)
      exact ⟨k, hk, hs, fun e he => (hnew e he).imp_right .cons⟩
    | some signal =>
      have hmuted : Muted base (addTerm (.orphan n.id (copyOf earlier n.id)) x.channel
          (zeroGain (n.id ++ ":zero") signal)) :=
        .term (.orphan n.id (copyOf earlier n.id)) trivial 0 1 2 _ _ _ h.muted
      obtain ⟨k₁, h₁, hn₁, hs₁⟩ := h.add hn n.id (x.count + 1)
        (fun _ _ _ _ heq => Scope.orphan.inj heq)
        (@Slot.nodup_of orphanSlots (by decide) (by decide) n.id)
        (zeroGain_makes _ (firstOutlet?_within hc hf)) hmuted
      obtain ⟨k₂, h₂, hs₂, hnew⟩ := ih (hc.mono h₁.subset) hs₁ hn₁
      refine ⟨k₂, h₁.subset.trans h₂, hs₂, fun e he => ?_⟩
      rcases hnew e he with he | he
      · exact Owned.head _ h₁ he
      · exact .inr he.cons

theorem injectProbes_spec {compiled : OutletMap} (edges : List Edge) {x : Injected}
    (hc : compiled.Within known) (h : x.Sound known base) (hn : Numbered .probe earlier known) :
    ∃ known', known ⊆ known' ∧ (injectProbes compiled earlier edges x).Sound known' base ∧
      ∀ e ∈ known', e ∈ known ∨ Owned .probe edgeSlots (edges.map Edge.id) earlier e := by
  induction edges generalizing known earlier x with
  | nil => exact ⟨known, subset_rfl, h, fun e he => .inl he⟩
  | cons edge edges ih =>
    rw [injectProbes]
    cases hf : (Resolve.sourceOf compiled edge).bind Signal.expr? with
    | none =>
      obtain ⟨k, hk, hs, hnew⟩ := ih hc h (hn.skip edge.id)
      exact ⟨k, hk, hs, fun e he => (hnew e he).imp_right .cons⟩
    | some signal =>
      have hsignal : signal ∈ known := by
        obtain ⟨s, hs, he⟩ := Option.bind_eq_some_iff.1 hf
        obtain ⟨f, hf, rfl⟩ := Resolve.sourceOf_within hc hs
        cases he
        exact hf
      have hmuted : Muted base (addTerm (.probe edge.id (copyOf earlier edge.id)) x.channel
          (edgeProbe edge.id signal)) :=
        .term (.probe edge.id (copyOf earlier edge.id)) trivial 2 3 4 _ _ _ h.muted
      obtain ⟨k₁, h₁, hn₁, hs₁⟩ := h.add hn edge.id (x.count + 1)
        (fun _ _ _ _ heq => Scope.probe.inj heq)
        (@Slot.nodup_of edgeSlots (by decide) (by decide) edge.id)
        (edgeProbe_makes _ hsignal) hmuted
      obtain ⟨k₂, h₂, hs₂, hnew⟩ := ih (hc.mono h₁.subset) hs₁ hn₁
      refine ⟨k₂, h₁.subset.trans h₂, hs₂, fun e he => ?_⟩
      rcases hnew e he with he | he
      · exact Owned.head _ h₁ he
      · exact .inr he.cons

/-- An edge is probed if what it comes from is there and is an expression. -/
def probed (compiled : OutletMap) (e : Edge) : Bool :=
  ((Resolve.sourceOf compiled e).bind Signal.expr?).isSome

theorem count_injectProbes (compiled : OutletMap) (edges : List Edge) (earlier : List String)
    (x : Injected) :
    (injectProbes compiled earlier edges x).count = x.count + edges.countP (probed compiled) := by
  induction edges generalizing earlier x with
  | nil => rfl
  | cons e edges ih =>
    rw [injectProbes, ih, List.countP_cons, probed]
    cases (Resolve.sourceOf compiled e).bind Signal.expr? with
    | none => rfl
    | some signal =>
      simp only [Option.isSome_some, if_true]
      omega

end Instrument

namespace Compile

open Instrument

/-- A target beside the bare one of the same patch. -/
structure Instrumented (bare t : RenderTarget) : Prop where
  grown : ∃ known, Grown known ∧ t.left ∈ known ∧ t.right ∈ known
  left : Muted bare.left t.left
  right : t.right = bare.right

/-- What the address of a node in a scope was given to. -/
inductive Origin (registry : Registry) (nodes : List Node) (edges : List Edge) (sink : String) :
    Scope → Address → Prop
  | node {i : Nat} {n : Node} {a : Address} (place : nodes[i]? = some n)
      (fits : Fits registry n a) :
      Origin registry nodes edges sink (.node n.id (copyAt nodes i n.id)) a
  | channel {s : Slot} (slot : s ∈ channelSlots) :
      Origin registry nodes edges sink .channel (s.of sink)
  | orphan {id : String} {copy : Nat} {s : Slot} (number : copy < (nodes.map Node.id).count id)
      (slot : s ∈ orphanSlots) : Origin registry nodes edges sink (.orphan id copy) (s.of id)
  | probe {id : String} {copy : Nat} {s : Slot} (number : copy < (edges.map Edge.id).count id)
      (slot : s ∈ edgeSlots) : Origin registry nodes edges sink (.probe id copy) (s.of id)

theorem count_orphans_le (registry : Registry) (nodes : List Node) (edges : List Edge)
    (id : String) : ((orphans nodes edges registry).map Node.id).count id ≤
      (nodes.map Node.id).count id := by
  have hperm := (List.mergeSort_perm (nodes.filter fun n => isVisualizer registry n &&
    edges.any (·.target = n.id) && !edges.any (·.source = n.id)) fun a b => !(b.id < a.id)).map
      Node.id
  rw [orphans, hperm.count_eq]
  exact (List.filter_sublist.map Node.id).count_le id

theorem instrument_spec (registry : Registry) (options : CompileOptions) (nodes : List Node)
    (edges : List Edge) (sink : String) {p : Pass} {bare : RenderTarget} (hg : Grown known)
    (hc : p.outlets.Within known) (hl : bare.left ∈ known)
    (hscope : ∀ e ∈ known, ¬e.label.scope.Injected) :
    ∃ known', known ⊆ known' ∧ Grown known' ∧
      (instrument registry options nodes edges p bare).1.left ∈ known' ∧
      Muted bare.left (instrument registry options nodes edges p bare).1.left ∧
      ∀ e ∈ known', e ∈ known ∨ ∀ a, e.address? = some a →
        Origin registry nodes edges sink e.label.scope a := by
  have hfree (tag : String → Nat → Scope) (htag : ∀ id copy, (tag id copy).Injected) :
      Numbered tag [] known := fun e he id copy heq =>
    absurd (heq ▸ htag id copy) (hscope e he)
  have hstart : Injected.Sound known bare.left ⟨bare.left, 0⟩ := ⟨hg, hl, .base⟩
  have horphans : ∃ k₁, known ⊆ k₁ ∧ Injected.Sound k₁ bare.left
      (if options.orphanVisualizers then
        injectOrphans registry p.outlets [] (orphans nodes edges registry) ⟨bare.left, 0⟩
      else ⟨bare.left, 0⟩) ∧
      ∀ e ∈ k₁, e ∈ known ∨
        Owned .orphan orphanSlots ((orphans nodes edges registry).map Node.id) [] e := by
    split
    · exact injectOrphans_spec registry (orphans nodes edges registry) hc hstart
        (hfree .orphan fun _ _ => trivial)
    · exact ⟨known, subset_rfl, hstart, fun e he => .inl he⟩
  obtain ⟨k₁, h₁, hs₁, hnew₁⟩ := horphans
  have hn₁ : Numbered .probe [] k₁ := by
    intro e he id copy heq
    rcases hnew₁ e he with he | ⟨id', -, copy', -, he, -⟩
    · exact hfree .probe (fun _ _ => trivial) e he id copy heq
    · rw [he] at heq
      cases heq
  have hprobes (x : Injected) (hx : x.Sound k₁ bare.left) :
      ∃ k₂, k₁ ⊆ k₂ ∧ Injected.Sound k₂ bare.left
        (if options.probeEdges then injectProbes p.outlets [] edges ⟨x.channel, 0⟩
        else ⟨x.channel, 0⟩) ∧
        ∀ e ∈ k₂, e ∈ k₁ ∨ Owned .probe edgeSlots (edges.map Edge.id) [] e := by
    have hx' : Injected.Sound k₁ bare.left ⟨x.channel, 0⟩ := ⟨hx.grown, hx.mem, hx.muted⟩
    split
    · exact injectProbes_spec edges (hc.mono h₁) hx' hn₁
    · exact ⟨k₁, subset_rfl, hx', fun e he => .inl he⟩
  obtain ⟨k₂, h₂, hs₂, hnew₂⟩ := hprobes _ hs₁
  refine ⟨k₂, h₁.trans h₂, hs₂.grown, hs₂.mem, hs₂.muted, fun e he => ?_⟩
  rcases hnew₂ e he with he | ⟨id, -, copy, hcopy, hscope, hslot⟩
  · refine (hnew₁ e he).imp_right fun hown a ha => ?_
    obtain ⟨id, -, copy, hcopy, hscope, hslot⟩ := hown
    obtain ⟨s, hs, rfl⟩ := List.mem_map.1 (hslot a ha)
    rw [copyOf, List.append_nil, List.count_reverse] at hcopy
    rw [hscope]
    exact .orphan (hcopy.trans_le (count_orphans_le registry nodes edges id)) hs
  · refine .inr fun a ha => ?_
    obtain ⟨s, hs, rfl⟩ := List.mem_map.1 (hslot a ha)
    rw [copyOf, List.append_nil, List.count_reverse] at hcopy
    rw [hscope]
    exact .probe hcopy hs

variable {registry : Registry} {nodes : List Node} {edges : List Edge}

theorem mem_of_findSink? {sink : Node} (h : findSink? registry nodes = some sink) :
    sink ∈ nodes :=
  List.mem_of_mem_filter (smallest?_spec h).1

/-- A target and the bare one of the same patch, among nodes whose addresses can be traced. -/
theorem patch_built (ht : ∀ t ∈ registry.types, t.Sound) {options : CompileOptions}
    {t : RenderTarget} (h : (patch registry options nodes edges).target = some t) :
    ∃ bare, (patch registry .bare nodes edges).target = some bare ∧ Muted bare.left t.left ∧
      t.right = bare.right ∧ ∃ sink ∈ nodes, ∃ known, Grown known ∧ t.left ∈ known ∧
        t.right ∈ known ∧ ∀ e ∈ known, ∀ a, e.address? = some a →
          Origin registry nodes edges sink.id e.label.scope a := by
  rw [patch] at h ⊢
  cases hs : findSink? registry nodes with
  | none => rw [hs] at h; cases h
  | some sink =>
    rw [hs] at h
    cases h
    obtain ⟨known, hb⟩ := compileAll_built edges ht
      (Order.topological_sorted nodes edges).nodup
    obtain ⟨known', hext, hg, hl, hr⟩ := channels_spec hb.grown hb.within sink.id fun e he heq => by
      obtain ⟨i, -, n, -, hscope, -⟩ := hb.scope e he
      rw [heq] at hscope
      cases hscope
    have horigin : ∀ e ∈ known', ∀ a, e.address? = some a →
        Origin registry nodes edges sink.id e.label.scope a := by
      intro e he a ha
      rcases hext.fresh e he with he | ⟨hscope, hnames⟩
      · obtain ⟨i, -, n, hn, hscope, hfits⟩ := hb.scope e he
        rw [hscope]
        exact .node hn (hfits a ha)
      · obtain ⟨s, hs, rfl⟩ := List.mem_map.1 (hnames a ha)
        rw [hscope]
        exact .channel hs
    have hplain : ∀ e ∈ known', ¬e.label.scope.Injected := by
      intro e he hinj
      rcases hext.fresh e he with he | ⟨he, -⟩
      · obtain ⟨i, -, n, -, hscope, -⟩ := hb.scope e he
        rw [hscope] at hinj
        exact hinj
      · rw [he] at hinj
        exact hinj
    obtain ⟨k, hk, hgk, hmem, hmuted, hnew⟩ := instrument_spec registry options nodes edges
      sink.id hg (hb.within.mono hext.subset) hl hplain
    exact ⟨_, rfl, hmuted, rfl, sink, mem_of_findSink? hs, k, hgk, hmem, hk hr, fun e he =>
      (hnew e he).elim (horigin e) id⟩

theorem patch_spec (ht : ∀ t ∈ registry.types, t.Sound) {options : CompileOptions}
    {t : RenderTarget} (h : (patch registry options nodes edges).target = some t) :
    ∃ bare, (patch registry .bare nodes edges).target = some bare ∧ Instrumented bare t := by
  obtain ⟨bare, hb, hmuted, hright, -, -, known, hg, hl, hr, -⟩ := patch_built ht h
  exact ⟨bare, hb, ⟨known, hg, hl, hr⟩, hmuted, hright⟩

end Compile

end Patchbay
