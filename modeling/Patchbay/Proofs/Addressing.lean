import Mathlib
import Patchbay.Proofs.Agreement
import Patchbay.Proofs.History
import Patchbay.Proofs.Injection

/-!
# Constants and taps one by one

In a compiled patch no two constants have one key, so setting a key changes a single constant, and
no two taps have one tag, so whoever listens to a tag hears a single tap. Both rest on ids without
colons. Tags ask for one thing more, as the two taps of a probe are named like those of an edge.
-/

set_option autoImplicit false

namespace Patchbay

open Patchbay.Expr

theorem channelSlots_apart : ∀ s ∈ channelSlots, s.Marked ∧ s ∉ edgeSlots := by decide

theorem orphanSlots_apart : ∀ s ∈ orphanSlots, s.Marked ∧ s ∉ channelSlots ∧ s ∉ edgeSlots := by
  decide

theorem edgeSlots_apart : ∀ s ∈ edgeSlots, s.Marked ∧ s ∉ channelSlots ∧ s ∉ orphanSlots := by
  decide

namespace Compile

variable {registry : Registry} {nodes : List Node} {edges : List Edge} {sink : String}

theorem eq_zero_of_lt_count {ids : List String} (distinct : ids.Nodup) {id : String} {copy : Nat}
    (h : copy < ids.count id) : copy = 0 := by
  have := List.nodup_iff_count_le_one.1 distinct id
  omega

/-- The scope in which an owner has a slot. -/
def home (owner : String) (s : Slot) : Scope :=
  if s ∈ channelSlots then .channel
  else if s ∈ orphanSlots then .orphan owner 0
  else if s ∈ edgeSlots then .probe owner 0
  else .node owner 0

/-- A node in a scope can have its address from a slot of an owner. Those of a probe alone are not
at home. -/
inductive Belongs (nodes : List Node) (edges : List Edge) (owner : String) (s : Slot) :
    Scope → Prop
  | node (id : owner ∈ nodes.map Node.id) (slot : s ∉ edgeSlots) :
      Belongs nodes edges owner s (home owner s)
  | edge (id : owner ∈ edges.map Edge.id) (slot : s ∈ edgeSlots) :
      Belongs nodes edges owner s (home owner s)
  | probe {n : Node} (node : n ∈ nodes) (type : n.type = "probe") (id : n.id = owner)
      (slot : s ∈ edgeSlots) (key : s ≠ .key ":z") : Belongs nodes edges owner s (.node owner 0)

theorem Origin.belongs {scope : Scope} {a : Address}
    (h : Origin registry nodes edges sink scope a) (nodeIds : (nodes.map Node.id).Nodup)
    (edgeIds : (edges.map Edge.id).Nodup) (hsink : sink ∈ nodes.map Node.id) :
    ∃ owner s, s.Marked ∧ a = s.of owner ∧ Belongs nodes edges owner s scope := by
  cases h with
  | @node i n a place fits =>
    obtain ⟨t, s, ht, ⟨hmarked, hchannel, horphan, hz, hprobe⟩, rfl⟩ := fits
    refine ⟨n.id, s, hmarked, rfl, ?_⟩
    have hn := List.mem_of_getElem? place
    rw [copyAt_eq_zero nodeIds place]
    by_cases hs : s ∈ edgeSlots
    · have htype : t.info.id = n.type := by simpa using List.find?_some ht
      have hid : t.info.id = "probe" := by
        by_contra hne
        exact hprobe hne hs
      exact .probe hn (htype.symm.trans hid) rfl hs hz
    · have hhome : home n.id s = .node n.id 0 := by
        rw [home, if_neg hchannel, if_neg horphan, if_neg hs]
      exact hhome ▸ .node (List.mem_map_of_mem hn) hs
  | @channel s slot =>
    obtain ⟨hmarked, hs⟩ := channelSlots_apart s slot
    have hhome : home sink s = .channel := if_pos slot
    exact ⟨sink, s, hmarked, rfl, hhome ▸ .node hsink hs⟩
  | @orphan id copy s number slot =>
    obtain ⟨hmarked, hchannel, hs⟩ := orphanSlots_apart s slot
    have hid : id ∈ nodes.map Node.id := List.count_pos_iff.1 (by omega)
    have hhome : home id s = .orphan id copy := by
      rw [home, if_neg hchannel, if_pos slot, eq_zero_of_lt_count nodeIds number]
    exact ⟨id, s, hmarked, rfl, hhome ▸ .node hid hs⟩
  | @probe id copy s number slot =>
    obtain ⟨hmarked, hchannel, horphan⟩ := edgeSlots_apart s slot
    have hid : id ∈ edges.map Edge.id := List.count_pos_iff.1 (by omega)
    have hhome : home id s = .probe id copy := by
      rw [home, if_neg hchannel, if_neg horphan, if_pos slot,
        eq_zero_of_lt_count edgeIds number]
    exact ⟨id, s, hmarked, rfl, hhome ▸ .edge hid slot⟩

/-- Where no probe and no edge compete for a slot it is in one scope only. -/
theorem Belongs.unique {owner : String} {s : Slot} {scope scope' : Scope}
    (h : Belongs nodes edges owner s scope) (h' : Belongs nodes edges owner s scope')
    (apart : s ∈ edgeSlots → s ≠ .key ":z" → ∀ n ∈ nodes, n.type = "probe" →
      n.id ∉ edges.map Edge.id) : scope = scope' := by
  cases h with
  | node id slot =>
    cases h' with
    | node => rfl
    | edge id' slot' => exact absurd slot' slot
    | probe node type id' slot' => exact absurd slot' slot
  | edge id slot =>
    cases h' with
    | node id' slot' => exact absurd slot slot'
    | edge => rfl
    | probe node type id' slot' key => exact absurd (id' ▸ id) (apart slot key _ node type)
  | probe node type id slot key =>
    cases h' with
    | node id' slot' => exact absurd slot slot'
    | edge id' slot' => exact absurd (id ▸ id') (apart slot key _ node type)
    | probe => rfl

theorem Belongs.plain {owner : String} {s : Slot} {scope : Scope}
    (h : Belongs nodes edges owner s scope) (plain : ∀ n ∈ nodes, ':' ∉ n.id.toList) :
    ':' ∉ owner.toList ∨ owner ∈ edges.map Edge.id ∧ s ∈ edgeSlots := by
  cases h with
  | node id slot =>
    obtain ⟨n, hn, rfl⟩ := List.mem_map.1 id
    exact .inl (plain n hn)
  | edge id slot => exact .inr ⟨id, slot⟩
  | probe node type id slot key =>
    subst id
    exact .inl (plain _ node)

/-- Among the nodes of a target an address is that of one node, as soon as it can be told whose it
is and no probe competes with an edge for it. -/
theorem eq_of_address {options : CompileOptions} {t : RenderTarget}
    (h : (patch .builtin options nodes edges).target = some t)
    (nodeIds : (nodes.map Node.id).Nodup) (edgeIds : (edges.map Edge.id).Nodup) {a : Address}
    (told : ∀ owner s scope owner' s' scope', s.Marked → s'.Marked → a = s.of owner →
      a = s'.of owner' → Belongs nodes edges owner s scope → Belongs nodes edges owner' s' scope' →
      owner = owner' ∧ s = s')
    (apart : ∀ owner s, a = s.of owner → s ∈ edgeSlots → s ≠ .key ":z" → ∀ n ∈ nodes,
      n.type = "probe" → n.id ∉ edges.map Edge.id) {e f : Expr}
    (he : e ∈ under [t.left, t.right]) (hf : f ∈ under [t.left, t.right])
    (hea : e.address? = some a) (hfa : f.address? = some a) : e = f := by
  obtain ⟨-, -, -, -, sink, hsink, known, hg, hl, hr, horigin⟩ := patch_built builtin_sound h
  have hmem := partsAll_of_grown hg [t.left, t.right] (by simp [hl, hr])
  have hid : sink.id ∈ nodes.map Node.id := List.mem_map_of_mem hsink
  obtain ⟨owner, s, hs, has, hb⟩ := (horigin e (hmem e he) a hea).belongs nodeIds edgeIds hid
  obtain ⟨owner', s', hs', has', hb'⟩ := (horigin f (hmem f hf) a hfa).belongs nodeIds edgeIds hid
  obtain ⟨rfl, rfl⟩ := told _ _ _ _ _ _ hs hs' has has' hb hb'
  have hscope := hb.unique hb' (apart owner s has)
  exact hg.addressed e (hmem e he) f (hmem f hf) hscope a hea hfa

theorem eq_of_key {options : CompileOptions} {t : RenderTarget}
    (h : (patch .builtin options nodes edges).target = some t)
    (nodeIds : (nodes.map Node.id).Nodup) (edgeIds : (edges.map Edge.id).Nodup)
    (plainNodes : ∀ n ∈ nodes, ':' ∉ n.id.toList) (plainEdges : ∀ e ∈ edges, ':' ∉ e.id.toList)
    {key : String} {e f : Expr} (he : e ∈ under [t.left, t.right])
    (hf : f ∈ under [t.left, t.right]) (hek : Program.constKey? e = some key)
    (hfk : Program.constKey? f = some key) : e = f := by
  rw [← address?_key_iff] at hek hfk
  have hplain (owner : String) (s : Slot) (scope : Scope) (hb : Belongs nodes edges owner s scope) :
      ':' ∉ owner.toList := by
    rcases hb.plain plainNodes with hplain | ⟨hid, -⟩
    · exact hplain
    · obtain ⟨edge, hedge, rfl⟩ := List.mem_map.1 hid
      exact plainEdges edge hedge
  refine eq_of_address h nodeIds edgeIds ?_ ?_ he hf hek hfk
  · intro owner s scope owner' s' scope' hs hs' ha ha' hb hb'
    exact Slot.of_inj (hplain _ _ _ hb) (hplain _ _ _ hb') hs hs' (ha.symm.trans ha')
  · intro owner s ha hslot hz
    simp only [edgeSlots, List.mem_cons, List.not_mem_nil, or_false] at hslot
    rcases hslot with rfl | rfl | rfl
    · cases ha
    · cases ha
    · exact absurd rfl hz

/-- Tags can be told apart even if the ids of edges have colons in them. -/
theorem tag_told (plain : ∀ n ∈ nodes, ':' ∉ n.id.toList) {owner owner' : String} {s s' : Slot}
    {scope scope' : Scope} {g : ProbeTag} (hs : s.Marked) (hs' : s'.Marked)
    (ha : .tag g = s.of owner) (ha' : .tag g = s'.of owner')
    (hb : Belongs nodes edges owner s scope) (hb' : Belongs nodes edges owner' s' scope') :
    owner = owner' ∧ s = s' := by
  have hcount (s : Slot) (owner : String) (hs : s.Marked) (ha : .tag g = s.of owner) :
      s.suffix.toList.count ':' ≤ 1 := by
    cases s with
    | key suffix => cases ha
    | own kind => simp [Slot.suffix]
    | tag kind suffix => exact hs.2.le
  have hedge (s : Slot) (owner : String) (hs : s ∈ edgeSlots) (ha : .tag g = s.of owner) :
      s = .tag .meter ":meter" ∨ s = .tag .scope ":scope" := by
    simp only [edgeSlots, List.mem_cons, List.not_mem_nil, or_false] at hs
    rcases hs with rfl | rfl | rfl
    · exact .inl rfl
    · exact .inr rfl
    · cases ha
  have hone (s : Slot) (owner : String) (hs : s ∈ edgeSlots) (ha : .tag g = s.of owner) :
      s.suffix.toList.count ':' = 1 := by
    rcases hedge s owner hs ha with rfl | rfl <;> decide
  have hsame := ha.symm.trans ha'
  rcases hb.plain plain with ho | ⟨-, hslot⟩
  · have ho' : ':' ∉ owner'.toList := by
      rcases hb'.plain plain with ho' | ⟨-, hslot'⟩
      · exact ho'
      · refine Slot.no_colon ho ?_ hsame
        rw [hone s' owner' hslot' ha']
        exact hcount s owner hs ha
    exact Slot.of_inj ho ho' hs hs' hsame
  · rcases hb'.plain plain with ho' | ⟨-, hslot'⟩
    · have ho : ':' ∉ owner.toList := by
        refine Slot.no_colon ho' ?_ hsame.symm
        rw [hone s owner hslot ha]
        exact hcount s' owner' hs' ha'
      exact Slot.of_inj ho ho' hs hs' hsame
    · have heq : s = s' := by
        rcases hedge s owner hslot ha with rfl | rfl <;>
          rcases hedge s' owner' hslot' ha' with rfl | rfl
        · rfl
        · cases ha.symm.trans ha'
        · cases ha.symm.trans ha'
        · rfl
      subst heq
      have hname := congrArg (fun a => a.name.toList) hsame
      simp only [Address.name_of, String.toList_append, List.append_cancel_right_eq] at hname
      exact ⟨String.toList_injective hname, rfl⟩

theorem eq_of_tag {options : CompileOptions} {t : RenderTarget}
    (h : (patch .builtin options nodes edges).target = some t)
    (nodeIds : (nodes.map Node.id).Nodup) (edgeIds : (edges.map Edge.id).Nodup)
    (plain : ∀ n ∈ nodes, ':' ∉ n.id.toList)
    (apart : ∀ n ∈ nodes, n.type = "probe" → n.id ∉ edges.map Edge.id) {g : ProbeTag}
    {e f : Expr} (he : e ∈ under [t.left, t.right]) (hf : f ∈ under [t.left, t.right])
    (heg : e.op.tap?.map Tap.tag = some g) (hfg : f.op.tap?.map Tap.tag = some g) : e = f := by
  rw [← address?_tag_iff] at heg hfg
  refine eq_of_address h nodeIds edgeIds ?_ (fun _ _ _ _ _ => apart) he hf heg hfg
  intro owner s scope owner' s' scope' hs hs' ha ha' hb hb'
  exact tag_told plain hs hs' ha ha' hb hb'

theorem patch_of_no_orphans (h : Instrument.orphans nodes edges registry = []) (probes : Bool) :
    (patch registry ⟨probes, true⟩ nodes edges).target =
      (patch registry ⟨probes, false⟩ nodes edges).target := by
  rw [patch, patch]
  cases findSink? registry nodes with
  | none => rfl
  | some sink => simp [instrument, h, Instrument.injectOrphans]

end Compile

namespace Program

/-- One constant has another value, and nothing else has changed. -/
def OneSet (p p' : Program) (slot : Nat) (value : Float32) : Prop :=
  ∃ old args, p.cells[slot]? = some ⟨.const old, args⟩ ∧
    p' = { p with cells := p.cells.set slot ⟨.const value, args⟩ }

theorem setConst_eq_set {p : Program} {key : String} {slot : Nat}
    (hslots : ∀ i, i ∈ p.slotsOf key ↔ i = slot) {old : Float32} {args : List Nat}
    (hcell : p.cells[slot]? = some ⟨.const old, args⟩) (value : Float32) :
    p.setConst key value = { p with cells := p.cells.set slot ⟨.const value, args⟩ } := by
  rw [setConst_eq]
  congr 1
  apply List.ext_getElem?
  intro i
  rw [List.getElem?_mapIdx, List.getElem?_set]
  by_cases hi : i = slot
  · subst hi
    obtain ⟨hlt, hget⟩ := List.getElem?_eq_some_iff.1 hcell
    simp [hslots, hlt, hget, Kernel.setConst]
  · have hne : slot ≠ i := fun h => hi h.symm
    cases p.cells[i]? <;> simp [hslots, hi, hne]

end Program

variable {rate : Float32} {current : String → Option Float32} {left right : Expr} {key : String}
variable {value : Float32}

theorem born_const {e : Expr} {k : Kernel} (h : Born rate current e k)
    (hkey : Program.constKey? e = some key) : ∃ v, k = .const v := by
  cases h with
  | const v op => exact ⟨_, rfl⟩
  | kernel new k op setup origin tuned =>
    rw [Program.constKey?_of_ne op] at hkey
    cases hkey

/-- Where a key is not shared, setting it changes a single constant. -/
theorem setConst?_oneSet (hs : Coherent (under [left, right]))
    (hone : ∀ e ∈ under [left, right], ∀ f ∈ under [left, right],
      Program.constKey? e = some key → Program.constKey? f = some key → e = f)
    {p p' : Program} (h : Laid (Born rate current) rate left right p)
    (hset : p.setConst? key value = some p') :
    ∃ e ∈ under [left, right], Program.constKey? e = some key ∧
      p.OneSet p' (Program.slotOf (nodesOf [left, right]) e) value := by
  have hlist := listed_nodesOf _ hs
  obtain ⟨i, hi⟩ : ∃ i, i ∈ p.slotsOf key := by
    refine List.exists_mem_of_ne_nil _ fun hnil => ?_
    rw [Program.setConst?, hnil] at hset
    cases hset
  obtain ⟨e, he, hkey, rfl⟩ := (Program.mem_slotsOf_iff h.constants key i).1 hi
  have hunder := (mem_nodesOf _ hs e).1 he
  have hslots (i : Nat) : i ∈ p.slotsOf key ↔ i = Program.slotOf (nodesOf [left, right]) e := by
    constructor
    · intro h'
      obtain ⟨f, hf, hfkey, rfl⟩ := (Program.mem_slotsOf_iff h.constants key i).1 h'
      rw [hone f ((mem_nodesOf _ hs f).1 hf) e hunder hfkey hkey]
    · rintro rfl
      exact hi
  -- the cell of the node holds a constant, whatever the renderer has gone through
  obtain ⟨old, args, hcell⟩ : ∃ old args,
      p.cells[Program.slotOf (nodesOf [left, right]) e]? = some ⟨.const old, args⟩ := by
    obtain ⟨cells, hcells, hall⟩ := h.cells
    obtain ⟨j, hj, rfl⟩ := List.getElem_of_mem he
    have hj' : j < cells.length := hall.length_eq ▸ hj
    obtain ⟨-, hborn⟩ := (List.forall₂_iff_get.1 hall).2 j hj hj'
    obtain ⟨old, hold⟩ := born_const hborn hkey
    refine ⟨old, cells[j].args, ?_⟩
    rw [Program.slotOf_getElem hlist j hj, hcells, List.getElem?_cons_succ,
      List.getElem?_eq_getElem hj', ← hold]
    rfl
  refine ⟨e, hunder, hkey, old, args, hcell, ?_⟩
  rw [← Program.setConst_eq_set hslots hcell value, Program.setConst, hset, Option.getD_some]

/-- No key of a compiled patch is that of two constants. So whatever has been played since loading,
setting a key that is found gives a single constant another value. -/
theorem setConst?_individual (options : CompileOptions) (nodes : List Node) (edges : List Edge)
    (t : RenderTarget) (nodeIds : (nodes.map Node.id).Nodup) (edgeIds : (edges.map Edge.id).Nodup)
    (plainNodes : ∀ n ∈ nodes, ':' ∉ n.id.toList) (plainEdges : ∀ e ∈ edges, ':' ∉ e.id.toList)
    (h : (Compile.patch .builtin options nodes edges).target = some t) :
    (∀ e ∈ under [t.left, t.right], ∀ f ∈ under [t.left, t.right], ∀ key,
      Program.constKey? e = some key → Program.constKey? f = some key → e = f) ∧
    ∀ (r loaded played r' : Renderer) (history : List Action) (key : String) (value : Float32),
      r.load t.left t.right = .ok loaded → loaded.actAll history = .ok played →
      played.setConst? key value = some r' →
      ∃ l l', played.loaded = some l ∧ r'.loaded = some l' ∧
        ∃ e ∈ under [t.left, t.right], Program.constKey? e = some key ∧
          l.program.OneSet l'.program
            (Program.slotOf (nodesOf [t.left, t.right]) e) value := by
  have hone : ∀ e ∈ under [t.left, t.right], ∀ f ∈ under [t.left, t.right], ∀ key,
      Program.constKey? e = some key → Program.constKey? f = some key → e = f :=
    fun e he f hf key => Compile.eq_of_key h nodeIds edgeIds plainNodes plainEdges he hf
  refine ⟨hone, fun r loaded played r' history key value hload hplay hset => ?_⟩
  obtain ⟨-, -, -, -, -, -, known, hg, hl, hr, -⟩ := Compile.patch_built builtin_sound h
  have hs : Coherent (under [t.left, t.right]) := coherent_of_grown hg (by simp [hl, hr])
  obtain ⟨l₀, h₀⟩ := load_played hload
  obtain ⟨l, hplayed⟩ := actAll_played hs history h₀ hplay
  obtain ⟨l₁, p, hl₁, hp, rfl⟩ := Renderer.setConst?_eq hset
  obtain rfl : l₁ = l := Option.some.inj (hl₁.symm.trans hplayed.loaded)
  obtain ⟨e, he, hkey, hset'⟩ :=
    setConst?_oneSet hs (fun e he f hf => hone e he f hf key) hplayed.laid hp
  exact ⟨l₁, _, hl₁, rfl, e, he, hkey, hset'⟩

/-- A number behind a probe and heard. -/
def probedNodes : List Node :=
  [⟨"n", "number", none, .empty⟩, ⟨"x", "probe", none, .empty⟩, ⟨"out", "output", none, .empty⟩]

def probedEdges (first : String) : List Edge :=
  [⟨first, "n", "signal", "x", "input"⟩, ⟨"y", "x", "signal", "out", "left"⟩]

def probedTarget (first : String) : RenderTarget :=
  (Compile.patch .builtin ⟨true, false⟩ probedNodes (probedEdges first)).target.getD
    ⟨Renderer.silentRoot, Renderer.silentRoot⟩

/-- Nothing is an orphan there, so it does not matter that orphans are asked for. -/
theorem probed_target (first : String) :
    (Compile.patch .builtin .full probedNodes (probedEdges first)).target =
      some (probedTarget first) := by
  have horphans : Instrument.orphans probedNodes (probedEdges first) .builtin = [] :=
    List.mergeSort_nil
  exact Compile.patch_of_no_orphans horphans true

theorem setConst?_individual_probed :
    (∀ e ∈ under [(probedTarget "a").left, (probedTarget "a").right],
      ∀ f ∈ under [(probedTarget "a").left, (probedTarget "a").right], ∀ key,
        Program.constKey? e = some key → Program.constKey? f = some key → e = f) ∧
    ∃ loaded played r' l l', Renderer.load ⟨48000.0, 512, 0, none, .empty, 0⟩
        (probedTarget "a").left (probedTarget "a").right = .ok loaded ∧
      loaded.actAll [.process 1, .flush] = .ok played ∧
      played.setConst? "n:value" 0.25 = some r' ∧
      played.loaded = some l ∧ r'.loaded = some l' ∧
      ∃ e ∈ under [(probedTarget "a").left, (probedTarget "a").right],
        Program.constKey? e = some "n:value" ∧ l.program.OneSet l'.program
          (Program.slotOf (nodesOf [(probedTarget "a").left, (probedTarget "a").right]) e)
          0.25 := by
  obtain ⟨hone, hset⟩ := setConst?_individual .full probedNodes (probedEdges "a")
    (probedTarget "a") (by decide) (by decide) (by decide) (by decide) (probed_target "a")
  obtain ⟨l, l', hl, hl', e, he, hkey, hvalue⟩ := hset ⟨48000.0, 512, 0, none, .empty, 0⟩ _ _ _
    [.process 1, .flush] "n:value" 0.25 rfl rfl rfl
  exact ⟨hone, _, _, _, l, l', rfl, rfl, rfl, hl, hl', e, he, hkey, hvalue⟩

theorem nodup_of_listed {nodes : List Expr} (h : Listed nodes) : nodes.Nodup := by
  rw [List.Nodup, List.pairwise_iff_getElem]
  intro i j hi hj hij heq
  have hsplit : nodes = nodes.take j ++ nodes[j] :: nodes.drop (j + 1) := by simp
  have hmem : nodes[i] ∈ nodes.take j := List.mem_take_iff_getElem.2 ⟨i, by omega, rfl⟩
  exact (h _ _ _ hsplit).2 _ hmem (congrArg label heq)

/-- No tag of a compiled patch is that of two taps, given that its check finds nothing, the ids of
its nodes have no colons and no probe has the id of an edge. So a tag that can be listened to is
that of a single tap. -/
theorem taps_individual (options : CompileOptions) (p : Patch) (t : RenderTarget)
    (clean : Check.patch .builtin p = []) (plain : ∀ n ∈ p.nodes, ':' ∉ n.id.toList)
    (apart : ∀ n ∈ p.nodes, n.type = "probe" → n.id ∉ p.edges.map Edge.id)
    (h : (Compile.patch .builtin options p.nodes p.edges).target = some t) :
    (∀ e ∈ under [t.left, t.right], ∀ f ∈ under [t.left, t.right], ∀ g,
      e.op.tap?.map Tap.tag = some g → f.op.tap?.map Tap.tag = some g → e = f) ∧
    ∀ r r' : Renderer, r.load t.left t.right = .ok r' → ∀ g ∈ r'.taps, r'.taps.count g = 1 := by
  have hwell := (Check.checked_of_patch clean).wellFormed
  have hone : ∀ e ∈ under [t.left, t.right], ∀ f ∈ under [t.left, t.right], ∀ g,
      e.op.tap?.map Tap.tag = some g → f.op.tap?.map Tap.tag = some g → e = f :=
    fun e he f hf g => Compile.eq_of_tag h hwell.nodeIds hwell.edgeIds plain apart he hf
  refine ⟨hone, fun r r' hload g hg => List.count_eq_one_of_mem ?_ hg⟩
  obtain ⟨-, -, -, -, -, -, known, hgrown, hl, hr, -⟩ := Compile.patch_built builtin_sound h
  have hs : Coherent (under [t.left, t.right]) := coherent_of_grown hgrown (by simp [hl, hr])
  obtain ⟨l, hplayed⟩ := load_played hload
  have htaps : r'.taps = (nodesOf [t.left, t.right]).filterMap fun e => e.op.tap?.map Tap.tag := by
    rw [Renderer.taps, hplayed.loaded]
    simp only [hplayed.laid.taps, tapsOf, List.map_filterMap]
  rw [htaps, List.Nodup, List.pairwise_filterMap]
  refine (nodup_of_listed (listed_nodesOf _ hs)).imp_of_mem ?_
  intro e f he hf hne g hg g' hg' heq
  subst heq
  exact hne (hone e ((mem_nodesOf _ hs e).1 he) f ((mem_nodesOf _ hs f).1 hf) g hg hg')

theorem taps_individual_probed :
    (∀ e ∈ under [(probedTarget "a").left, (probedTarget "a").right],
      ∀ f ∈ under [(probedTarget "a").left, (probedTarget "a").right], ∀ g,
        e.op.tap?.map Tap.tag = some g → f.op.tap?.map Tap.tag = some g → e = f) ∧
    ∀ r r' : Renderer, r.load (probedTarget "a").left (probedTarget "a").right = .ok r' →
      ∀ g ∈ r'.taps, r'.taps.count g = 1 :=
  taps_individual .full ⟨probedNodes, probedEdges "a"⟩ (probedTarget "a") (by decide) (by decide)
    (by decide) (probed_target "a")

/-- With the edge into the probe named like the probe, the check finds nothing either, and their
meters are two taps under one tag. -/
theorem taps_individual_rivals :
    Check.patch .builtin ⟨probedNodes, probedEdges "x"⟩ = [] ∧
      (Compile.patch .builtin .full probedNodes (probedEdges "x")).target =
        some (probedTarget "x") ∧
      ∃ e ∈ under [(probedTarget "x").left, (probedTarget "x").right],
        ∃ f ∈ under [(probedTarget "x").left, (probedTarget "x").right], e ≠ f ∧
          e.op.tap?.map Tap.tag = some ⟨.meter, "x:meter"⟩ ∧
          f.op.tap?.map Tap.tag = some ⟨.meter, "x:meter"⟩ := by
  have htaps : ∀ l ∈ [⟨.node "x" 0, 0⟩, ⟨.probe "x" 0, 0⟩],
      l ∈ ((partsAll [(probedTarget "x").left, (probedTarget "x").right]).filter fun e =>
        e.op.tap?.map Tap.tag = some ⟨.meter, "x:meter"⟩).map Expr.label := by
    decide
  obtain ⟨e, he, hel⟩ := List.mem_map.1 (htaps ⟨.node "x" 0, 0⟩ (by simp))
  obtain ⟨f, hf, hfl⟩ := List.mem_map.1 (htaps ⟨.probe "x" 0, 0⟩ (by simp))
  rw [List.mem_filter, decide_eq_true_eq] at he hf
  refine ⟨by decide, probed_target "x", e, he.1, f, hf.1, ?_, he.2, hf.2⟩
  rintro rfl
  cases hel.symm.trans hfl

end Patchbay
