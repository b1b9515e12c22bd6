import Mathlib
import Patchbay.Compile.Target
import Patchbay.Proofs.NodeTypes
import Patchbay.Proofs.Order
import Patchbay.Proofs.Table

/-!
# The nodes of a target

Every step of the compiler works in a scope that no step before it has used, whatever ids repeat
in the patch. So the nodes of a target are coherent, and all that flows between compiled nodes
are expressions among them. The scope of a node tells whose slots its address is one of.
-/

set_option autoImplicit false

namespace Patchbay

variable {known : Set Expr} {names : List Address}

/-- What flows out of the nodes compiled so far. -/
def OutletMap.Within (known : Set Expr) (compiled : OutletMap) : Prop :=
  ∀ id (o : Outputs), compiled.find? id = some o →
    ∀ name s, o.find? name = some s → ∃ e ∈ known, s = .expr e

theorem OutletMap.within_empty : Within known Table.empty := by
  intro id o h
  cases h

theorem OutletMap.Within.mono {known' : Set Expr} {compiled : OutletMap}
    (h : compiled.Within known) (hk : known ⊆ known') : compiled.Within known' := by
  intro id o ho name s hs
  obtain ⟨e, he, rfl⟩ := h id o ho name s hs
  exact ⟨e, hk he, rfl⟩

theorem OutletMap.Within.insert {compiled : OutletMap} (h : compiled.Within known) (id : String)
    {o : Outputs} (ho : ∀ name s, o.find? name = some s → ∃ e ∈ known, s = .expr e) :
    Within known (Table.insert compiled id o) := by
  intro id' o' h'
  rw [Table.find?_insert] at h'
  split at h'
  · cases h'
    exact ho
  · exact h id' o' h'

namespace Resolve

variable {edges : List Edge} {compiled : OutletMap} {node : Node}

theorem sourceOf_within (hc : compiled.Within known) {edge : Edge} {s : Signal}
    (h : sourceOf compiled edge = some s) : ∃ e ∈ known, s = .expr e := by
  obtain ⟨o, ho, hs⟩ := Option.bind_eq_some_iff.1 h
  exact hc _ o ho _ s hs

theorem inletSignal_makes (hc : compiled.Within known) (inlet : Inlet) :
    (inletSignal edges compiled node inlet).Makes known names names
      fun known' s => s.In known' := by
  rw [inletSignal]
  split
  · next edge signal h =>
    simp only [connection?, Option.bind_eq_bind, Option.bind_eq_some_iff, Option.pure_def,
      Option.some.injEq, Prod.mk.injEq] at h
    obtain ⟨edge, -, signal, hsource, rfl, rfl⟩ := h
    obtain ⟨e, he, rfl⟩ := sourceOf_within hc hsource
    exact .pure he
  · exact .pure trivial

theorem inletSignals_makes (hc : compiled.Within known) (inlets : List Inlet) :
    (inletSignals edges compiled node inlets).Makes known names names fun known' ss =>
      ss.map Prod.fst = inlets.map Inlet.name ∧ ∀ e ∈ ss, e.2.In known' := by
  induction inlets generalizing known with
  | nil => exact .pure ⟨rfl, by simp⟩
  | cons inlet inlets ih =>
    refine .bind (inletSignal_makes hc inlet) fun k₁ h₁ s hs => ?_
    refine .bind (ih (hc.mono h₁)) fun k₂ h₂ ss hss => ?_
    refine .pure ⟨by simp [hss.1], fun e he => ?_⟩
    rcases List.mem_cons.1 he with rfl | he
    · exact hs.mono h₂
    · exact hss.2 e he

theorem inputs_makes (hc : compiled.Within known) (info : NodeInfo) :
    (inputs node info edges compiled).Makes known names names fun known' i =>
      i.Offers known' (info.inlets.map Inlet.name) := by
  refine .bind (inletSignals_makes hc info.inlets) fun k₁ h₁ ss hss => ?_
  refine .pure fun name hn => ?_
  rw [← hss.1] at hn
  obtain ⟨s, hs, hf⟩ := Table.find?_ofList_of_mem hn
  exact ⟨s, hf, hss.2 _ hs⟩

end Resolve

namespace Compile

variable {registry : Registry} {nodes : List Node}

theorem checkOutlets_ok {info : NodeInfo} {o : Outputs}
    (h : ∀ name ∈ info.outlets, ∃ s, o.find? name = some s) : checkOutlets info o = .ok o := by
  have hnone : info.outlets.find? (fun outlet => (o.find? outlet).isNone) = none := by
    rw [List.find?_eq_none]
    intro name hn
    obtain ⟨s, hs⟩ := h name hn
    simp [hs]
  rw [checkOutlets, hnone]

/-- An address of a node of some type. -/
def Fits (registry : Registry) (node : Node) (a : Address) : Prop :=
  ∃ t s, registry.find? node.type = some t ∧ t.info.Permits s ∧ a = s.of node.id

theorem compileNode_spec (edges : List Edge) (ht : ∀ t ∈ registry.types, t.Sound) (hg : Grown known)
    {compiled : OutletMap} (hc : compiled.Within known) (node : Node) (copy : Nat)
    (hfree : ∀ e ∈ known, e.label.scope ≠ .node node.id copy) :
    ∃ known', (∃ names, Extends (.node node.id copy) names known known' ∧
        ∀ a ∈ names, Fits registry node a) ∧ Grown known' ∧
      match registry.find? node.type with
      | none => compileNode registry edges compiled node copy = .skipped
      | some t => ∃ o, compileNode registry edges compiled node copy = .compiled o ∧
          o.Gives known' t.info.outlets := by
  cases hf : registry.find? node.type with
  | none => exact ⟨known, ⟨[], extends_refl _ _ _, by simp⟩, hg, by simp [compileNode, hf]⟩
  | some t =>
    obtain ⟨slots, hnodup, hpermits, hfills⟩ := ht t (List.mem_of_find?_eq_some hf)
    have hmakes : Build.Makes known (slots.map (Slot.of node.id)) (do
        let inputs ← Resolve.inputs node t.info edges compiled
        (t.compile inputs node.id).run) [] fun known' r =>
          ∃ o, r = .ok o ∧ Outputs.Gives known' t.info.outlets o :=
      .bind (Resolve.inputs_makes hc t.info) fun k₁ h₁ i hi => hfills k₁ i node.id hi
    obtain ⟨known', hext, hg', o, ho, hgives⟩ :=
      hmakes.within hg (Slot.nodup_of hnodup (fun s hs => (hpermits s hs).1) node.id) _ hfree
    refine ⟨known', ⟨_, hext, fun a ha => ?_⟩, hg', o, ?_, hgives⟩
    · obtain ⟨s, hs, rfl⟩ := List.mem_map.1 ha
      exact ⟨t, s, hf, hpermits s hs, rfl⟩
    simp only [compileNode, hf, ho, Except.bind, checkOutlets_ok hgives.some]

theorem copyAt_lt {i j : Nat} (hij : i < j) {n : Node} (hi : nodes[i]? = some n) :
    copyAt nodes i n.id < copyAt nodes j n.id := by
  have htake : nodes.take (i + 1) = nodes.take i ++ [n] := by
    rw [List.take_add_one, hi, Option.toList_some]
  have hsub : (nodes.take (i + 1)).Sublist (nodes.take j) :=
    (List.take_prefix_take_left hij).sublist
  have hle := hsub.countP_le (p := fun m => decide (m.id = n.id))
  rw [htake, List.countP_append, List.countP_singleton] at hle
  simp only [decide_true, if_true] at hle
  exact hle

theorem copyAt_inj {i j : Nat} {n m : Node} (hi : nodes[i]? = some n) (hj : nodes[j]? = some m)
    (hid : n.id = m.id) (hcopy : copyAt nodes i n.id = copyAt nodes j m.id) : i = j := by
  rcases Nat.lt_trichotomy i j with h | h | h
  · have := copyAt_lt h hi
    rw [hcopy, hid] at this
    exact absurd this (lt_irrefl _)
  · exact h
  · have := copyAt_lt h hj
    rw [← hcopy, hid] at this
    exact absurd this (lt_irrefl _)

/-- What is there once the places in `done` have been compiled. -/
structure Built (registry : Registry) (nodes : List Node) (done : List Nat) (known : Set Expr)
    (p : Pass) : Prop where
  grown : Grown known
  within : p.outlets.Within known
  scope : ∀ e ∈ known, ∃ i ∈ done, ∃ n, nodes[i]? = some n ∧
    e.label.scope = .node n.id (copyAt nodes i n.id) ∧
    ∀ a, e.address? = some a → Fits registry n a

/-- The scope of a place that has not been compiled is unused. -/
theorem Built.free {done : List Nat} {p : Pass} (h : Built registry nodes done known p) {i : Nat}
    (hi : i ∉ done) {n : Node} (hn : nodes[i]? = some n) :
    ∀ e ∈ known, e.label.scope ≠ .node n.id (copyAt nodes i n.id) := by
  intro e he heq
  obtain ⟨j, hj, m, hm, hscope, -⟩ := h.scope e he
  rw [heq, Scope.node.injEq] at hscope
  exact hi (copyAt_inj hn hm hscope.1 hscope.2 ▸ hj)

theorem compileAt_built (edges : List Edge) (ht : ∀ t ∈ registry.types, t.Sound)
    {done : List Nat} {p : Pass} (h : Built registry nodes done known p) {i : Nat}
    (hi : i ∉ done) :
    ∃ known', Built registry nodes (done ++ [i]) known' (compileAt registry nodes edges p i) := by
  rw [compileAt]
  cases hn : nodes[i]? with
  | none =>
    refine ⟨known, h.grown, h.within, fun e he => ?_⟩
    obtain ⟨j, hj, hscope⟩ := h.scope e he
    exact ⟨j, by simp [hj], hscope⟩
  | some n =>
    obtain ⟨known', ⟨names, hext, hfits⟩, hg, hres⟩ :=
      compileNode_spec edges ht h.grown h.within n (copyAt nodes i n.id) (h.free hi hn)
    have hscope : ∀ e ∈ known', ∃ j ∈ done ++ [i], ∃ m, nodes[j]? = some m ∧
        e.label.scope = .node m.id (copyAt nodes j m.id) ∧
        ∀ a, e.address? = some a → Fits registry m a := by
      intro e he
      rcases hext.fresh e he with he | ⟨he, hnamed⟩
      · obtain ⟨j, hj, hscope⟩ := h.scope e he
        exact ⟨j, by simp [hj], hscope⟩
      · exact ⟨i, by simp, n, hn, he, fun a ha => hfits a (hnamed a ha)⟩
    have hwithin := h.within.mono hext.subset
    refine ⟨known', hg, ?_, hscope⟩
    cases hf : registry.find? n.type with
    | none =>
      rw [hf] at hres
      simp only [hres, Pass.add]
      exact hwithin
    | some t =>
      rw [hf] at hres
      obtain ⟨o, ho, hgives⟩ := hres
      simp only [ho, Pass.add]
      exact hwithin.insert n.id hgives.expr

theorem compileAll_built (edges : List Edge) (ht : ∀ t ∈ registry.types, t.Sound) {order : List Nat}
    (ho : order.Nodup) :
    ∃ known, Built registry nodes order known (compileAll registry nodes edges order) := by
  have hfold (todo done : List Nat) (known : Set Expr) (p : Pass)
      (h : Built registry nodes done known p) (hd : (done ++ todo).Nodup) :
      ∃ known', Built registry nodes (done ++ todo) known'
        (todo.foldl (compileAt registry nodes edges) p) := by
    induction todo generalizing done known p with
    | nil => exact ⟨known, by simpa using h⟩
    | cons i todo ih =>
      have hi : i ∉ done := fun hmem => (List.nodup_append.1 hd).2.2 i hmem i (by simp) rfl
      obtain ⟨known', h'⟩ := compileAt_built edges ht h hi
      obtain ⟨known'', h''⟩ := ih (done ++ [i]) known' _ h' (by simpa using hd)
      exact ⟨known'', by simpa using h''⟩
  exact hfold order [] ∅ _ ⟨grown_empty, OutletMap.within_empty, by simp⟩ ho

theorem channel_makes {outlets : OutletMap} (h : outlets.Within known) (sink name : String) :
    (channel outlets sink name).Makes known (.key (sink ++ (":" ++ name ++ ":silence")) :: names)
      names fun known' e => e ∈ known' := by
  rw [← String.append_assoc, ← String.append_assoc, channel]
  split
  · next s hs =>
    obtain ⟨o, ho, hs⟩ := Option.bind_eq_some_iff.1 hs
    obtain ⟨e, he, rfl⟩ := h sink o ho name s hs
    exact .skip (.pure he)
  · exact .keyedConst

theorem channels_spec (hg : Grown known) {outlets : OutletMap} (h : outlets.Within known)
    (sink : String) (hfree : ∀ e ∈ known, e.label.scope ≠ .channel) :
    ∃ known', Extends .channel (channelSlots.map (Slot.of sink)) known known' ∧ Grown known' ∧
      (channels outlets sink).left ∈ known' ∧ (channels outlets sink).right ∈ known' := by
  have hmakes : Build.Makes known (channelSlots.map (Slot.of sink)) (do
      let left ← channel outlets sink "left"
      let right ← channel outlets sink "right"
      return (⟨left, right⟩ : RenderTarget)) [] fun known' t =>
        t.left ∈ known' ∧ t.right ∈ known' := by
    refine .bind (channel_makes h sink "left") fun k₁ h₁ left hl => ?_
    refine .bind (channel_makes (h.mono h₁) sink "right") fun k₂ h₂ right hr => ?_
    exact .pure ⟨h₂ hl, hr⟩
  exact hmakes.within hg (Slot.nodup_of (by decide) (by decide) sink) _ hfree

end Compile

end Patchbay
