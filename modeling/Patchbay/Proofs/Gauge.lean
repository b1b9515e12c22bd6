import Mathlib
import Patchbay.Proofs.Extremes
import Patchbay.Proofs.Layout

/-!
# What meters have seen

Between two reports a meter stands at the extremes of the samples it has taken in since the first of
them. At the end of a block every meter that has seen a sample raises one event, in the order of the
slots, and begins anew. Nothing else raises an event under the tag of a meter.
-/

set_option autoImplicit false

namespace Patchbay

open Patchbay.Expr

variable {rate : Float32} {held : Settings} {current : String → Option Float32}
variable {left right : Expr}

/-! ## Events on their way -/

/-- An event is built under the tag it is raised under. -/
def Raised.Tagged (e : Raised) : Prop := (e.build e.tag.name).tag = e.tag

/-- The events under a tag that reach a listener. -/
def heardBy (listener : Nat) (tag : ProbeTag) (deliveries : List Delivery) : List ProbeEvent :=
  (deliveries.filter fun d => d.listener = listener ∧ d.event.tag = tag).map Delivery.event

theorem heardBy_append (listener : Nat) (tag : ProbeTag) (a b : List Delivery) :
    heardBy listener tag (a ++ b) = heardBy listener tag a ++ heardBy listener tag b := by
  rw [heardBy, List.filter_append, List.map_append, heardBy, heardBy]

namespace ProbeBus

/-- How often a listener is subscribed to a tag. -/
def times (bus : ProbeBus) (listener : Nat) (tag : ProbeTag) : Nat :=
  match bus.find? tag with
  | some s => s.listeners.count listener
  | none => 0

theorem times_of_subscriptions {bus bus' : ProbeBus} (h : bus'.subscriptions = bus.subscriptions)
    (listener : Nat) (tag : ProbeTag) : bus'.times listener tag = bus.times listener tag := by
  rw [times, times, find?, find?, h]

theorem times_subscribe (bus : ProbeBus) {listener listener' : Nat} {tag tag' : ProbeTag}
    (h : ¬(tag' = tag ∧ listener' = listener)) :
    (bus.subscribe tag' listener').times listener tag = bus.times listener tag := by
  obtain ⟨subscriptions, delivered⟩ := bus
  induction subscriptions with
  | nil =>
    by_cases htag : tag' = tag
    · have hne : ¬listener' = listener := fun heq => h ⟨htag, heq⟩
      simp [times, find?, subscribe, addListener, htag, hne]
    · simp [times, find?, subscribe, addListener, htag]
  | cons s rest ih =>
    simp only [times, find?, subscribe, addListener] at ih ⊢
    by_cases hs : s.tag = tag'
    · rw [if_pos hs]
      by_cases htag : s.tag = tag
      · have hne : ¬listener' = listener := fun heq => h ⟨hs.symm.trans htag, heq⟩
        simp [htag, List.count_append, hne]
      · simp [htag]
    · rw [if_neg hs]
      by_cases htag : s.tag = tag
      · simp [htag]
      · simpa [htag] using ih

theorem times_unsubscribe (bus : ProbeBus) (listener : Nat) {tag tag' : ProbeTag} (h : tag' ≠ tag) :
    (bus.unsubscribe tag').times listener tag = bus.times listener tag := by
  have hfind : (bus.unsubscribe tag').find? tag = bus.find? tag := by
    rw [find?, unsubscribe, List.find?_filter, find?]
    congr 1
    funext s
    by_cases hs : s.tag = tag
    · simp [hs, h.symm]
    · simp [hs]
  rw [times, times, hfind]

end ProbeBus

theorem emitWith_tagged {e : Raised} (h : e.Tagged) (bus : ProbeBus) (listener : Nat)
    (tag : ProbeTag) :
    heardBy listener tag (bus.emitWith e.tag e.build).1 =
        (if e.tag = tag then List.replicate (bus.times listener tag) (e.build e.tag.name) else []) ∧
      (bus.emitWith e.tag e.build).2.subscriptions = bus.subscriptions := by
  rw [Raised.Tagged] at h
  rw [ProbeBus.emitWith, ProbeBus.wants, ProbeBus.emit, h]
  cases hfind : bus.find? e.tag with
  | none =>
    refine ⟨?_, rfl⟩
    by_cases htag : e.tag = tag
    · rw [if_pos htag, ← htag, ProbeBus.times, hfind]
      rfl
    · rw [if_neg htag]
      rfl
  | some s =>
    refine ⟨?_, rfl⟩
    simp only [Option.isSome_some, if_true, heardBy, List.filter_map, List.map_map]
    split
    · next htag =>
      subst htag
      rw [ProbeBus.times, hfind]
      simp [Function.comp_def, h, List.count_eq_length_filter, beq_eq_decide]
    · next htag => simp [Function.comp_def, h, htag]

namespace Renderer

/-- The events under a tag are heard as often as someone is subscribed to it, and the subscriptions
stay. -/
theorem route_heard {raised : List Raised} (h : ∀ e ∈ raised, e.Tagged) (bus : ProbeBus)
    (done : List Delivery) (listener : Nat) (tag : ProbeTag) :
    heardBy listener tag (route raised bus done).1.reverse =
        heardBy listener tag done.reverse ++ (raised.filter (·.tag = tag)).flatMap
          (fun e => List.replicate (bus.times listener tag) (e.build e.tag.name)) ∧
      (route raised bus done).2.subscriptions = bus.subscriptions := by
  induction raised generalizing bus done with
  | nil => exact ⟨(List.append_nil _).symm, rfl⟩
  | cons e raised ih =>
    rw [List.forall_mem_cons] at h
    obtain ⟨hheard, hsubs⟩ := emitWith_tagged h.1 bus listener tag
    obtain ⟨hrest, hkept⟩ := ih h.2 (bus.emitWith e.tag e.build).2
      ((bus.emitWith e.tag e.build).1.reverse ++ done)
    refine ⟨?_, hkept.trans hsubs⟩
    rw [route, hrest, List.reverse_append, List.reverse_reverse, heardBy_append, hheard,
      List.append_assoc, ProbeBus.times_of_subscriptions hsubs]
    congr 1
    by_cases htag : e.tag = tag
    · rw [if_pos htag, List.filter_cons_of_pos (by simpa using htag), List.flatMap_cons]
    · rw [if_neg htag, List.filter_cons_of_neg (by simpa using htag), List.nil_append]

/-- Whoever is subscribed once to a tag hears the events raised under it. -/
theorem route_tagged {raised : List Raised} (h : ∀ e ∈ raised, e.Tagged) (bus : ProbeBus)
    (done : List Delivery) {listener : Nat} {tag : ProbeTag} (once : bus.times listener tag = 1) :
    heardBy listener tag (route raised bus done).1.reverse =
        heardBy listener tag done.reverse ++
          (raised.filter (·.tag = tag)).map (fun e => e.build e.tag.name) ∧
      (route raised bus done).2.times listener tag = 1 := by
  obtain ⟨hheard, hsubs⟩ := route_heard h bus done listener tag
  refine ⟨?_, (ProbeBus.times_of_subscriptions hsubs listener tag).trans once⟩
  rw [hheard, once, List.map_eq_flatMap]
  rfl

end Renderer

/-! ## Kernels -/

namespace Kernel

/-- The kernel of a node is a meter at some extremes if the node is a meter, and otherwise none. -/
def Gauges (e : Expr) (x : Extremes) (k : Kernel) : Prop :=
  match e.op with
  | .tap (.meter name) => k = meter name x
  | _ => ∀ name y, k ≠ meter name y

theorem setup_gauges {e : Expr} {k : Kernel} (h : setup e.op e.key rate = .ok k) :
    k.Gauges e .empty := by
  obtain ⟨l, op, key, cs⟩ := e
  rw [Gauges.eq_def]
  simp only [Expr.op, Expr.key] at h ⊢
  cases op with
  | delay maxMs =>
    rw [setup] at h
    split at h
    · cases h
      simp
    · cases h
  | tap t =>
    obtain ⟨-, rfl⟩ := setup_tap_iff.1 h
    cases t <;> simp [ofTap]
  | _ =>
    cases h
    simp

theorem tick_meter (k : Kernel) {arg : Nat → Float32} {s : Step} (h : k.tick arg rate = .ok s) :
    (∃ name x, k = meter name x ∧ s = ⟨arg 0, meter name (x.push (arg 0)), none⟩) ∨
      (∀ name x, k ≠ meter name x) ∧ (∀ name x, s.kernel ≠ meter name x) ∧
        ∀ r ∈ s.raised, r.Tagged ∧ r.tag.kind ≠ .meter := by
  cases k with
  | meter name x =>
    cases h
    exact .inl ⟨name, x, rfl, rfl⟩
  | filter f =>
    rw [tick] at h
    split at h
    · cases h
      exact .inr (by simp)
    · cases h
  | scope name size held =>
    rw [tick] at h
    split at h <;> cases h
    · exact .inr (by simp [Raised.Tagged, ProbeEvent.tag])
    · exact .inr (by simp)
  | fft name size held =>
    rw [tick] at h
    split at h <;> cases h
    · exact .inr (by simp [Raised.Tagged, ProbeEvent.tag])
    · exact .inr (by simp)
  | _ =>
    cases h
    exact .inr (by simp)

theorem tick_gauges {e : Expr} {x : Extremes} {k : Kernel} (h : k.Gauges e x)
    {arg : Nat → Float32} {s : Step} (hs : k.tick arg rate = .ok s) :
    s.kernel.Gauges e (x.push (arg 0)) := by
  rw [Gauges.eq_def] at h ⊢
  obtain ⟨name, y, rfl, rfl⟩ | ⟨hk, hkernel, -⟩ := tick_meter k hs
  · split at h
    · cases h
      rfl
    · exact absurd rfl (h name y)
  · split at h
    · exact absurd h (hk _ _)
    · exact hkernel

theorem setConst_gauges {e : Expr} {x : Extremes} {k : Kernel} (h : k.Gauges e x)
    (value : Float32) : (k.setConst value).Gauges e x := by
  rw [Gauges.eq_def] at h ⊢
  split at h
  · rw [h]
    rfl
  · cases k <;> simp_all [setConst]

/-- What the meter of a node reports of some samples, if there are any. -/
def report? (e : Expr) (samples : List Float32) : Option Raised :=
  match e.op with
  | .tap (.meter name) =>
    if samples = [] then none
    else some ⟨⟨.meter, name⟩, fun n => .meter n (Extremes.ofSamples samples).min
      (Extremes.ofSamples samples).max⟩
  | _ => none

theorem endBlock_gauges {e : Expr} {samples : List Float32} {k : Kernel}
    (h : k.Gauges e (.ofSamples samples)) :
    k.endBlock.1.Gauges e .empty ∧ k.endBlock.2 = report? e samples := by
  have hcount : (Extremes.ofSamples samples).count = 0 ↔ samples = [] := by
    rw [Extremes.ofSamples_eq]
    exact List.length_eq_zero_iff
  rw [Gauges.eq_def, report?] at *
  split at h
  · subst h
    simp only [endBlock, hcount]
    split
    · next hnil =>
      subst hnil
      exact ⟨rfl, rfl⟩
    · exact ⟨rfl, rfl⟩
  · cases k with
    | meter name y => exact absurd rfl (h name y)
    | _ => exact ⟨h, rfl⟩

end Kernel

/-! ## Programs -/

namespace Program

theorem step_raised {cells : List Cell} {slot : Nat} {values scratch : Array Float32} {f : Frame}
    (h : step rate cells slot values scratch = .ok f) :
    ∀ r ∈ f.raised, r.Tagged ∧ r.tag.kind ≠ .meter := by
  induction cells generalizing slot values scratch f with
  | nil =>
    cases h
    simp
  | cons c cells ih =>
    obtain ⟨kernel, args⟩ := c
    rw [step] at h
    split at h
    · cases h
    · next s hs =>
      split at h
      · cases h
      · next rest =>
        cases h
        have hmine : ∀ r ∈ s.raised, r.Tagged ∧ r.tag.kind ≠ .meter := by
          obtain ⟨name, x, -, rfl⟩ | ⟨-, -, hraised⟩ := kernel.tick_meter hs
          · simp
          · exact hraised
        simp only [List.mem_append, Option.mem_toList]
        rintro r (hr | hr)
        · exact hmine r hr
        · exact ih rest r hr

end Program

/-- The meters under some roots that report under a tag. -/
def metersOf (tag : ProbeTag) (roots : List Expr) : List Expr :=
  (nodesOf roots).filter fun e => e.op.tap?.map Tap.tag = some tag

/-- What is heard under a tag at the end of a block, in which every meter has taken in some
samples. -/
def blockReport (tag : ProbeTag) (roots : List Expr) (samples : Expr → List Float32) :
    List ProbeEvent :=
  (metersOf tag roots).map fun e =>
    .meter tag.name (Extremes.ofSamples (samples e)).min (Extremes.ofSamples (samples e)).max

theorem filterMap_of_forall₂ {α β γ : Type} {S : α → β → Prop} {f : α → Option γ} {g : β → Option γ}
    {xs : List α} {ys : List β} (h : List.Forall₂ S xs ys) (hfg : ∀ x y, S x y → g y = f x) :
    ys.filterMap g = xs.filterMap f := by
  induction h with
  | nil => rfl
  | cons hxy hrest ih => rw [List.filterMap_cons, List.filterMap_cons, hfg _ _ hxy, ih]

/-- The end of a block raises what the meters have to report. -/
theorem endBlock_raised {R : Expr → Kernel → Prop} {samples : Expr → List Float32}
    (hR : ∀ e k, R e k → k.Gauges e (.ofSamples (samples e))) {p : Program}
    (h : Laid R rate left right p) :
    p.endBlock.1 = (nodesOf [left, right]).filterMap fun e => Kernel.report? e (samples e) := by
  obtain ⟨cells, hcells, hall⟩ := h.cells
  have hraised : p.endBlock.1 = p.cells.filterMap fun c => c.kernel.endBlock.2 := by
    rw [Program.endBlock, List.filterMap_map]
    rfl
  rw [hraised, hcells, List.filterMap_cons]
  exact filterMap_of_forall₂ hall fun e c hc => (Kernel.endBlock_gauges (hR e _ hc.2)).2

theorem report_tagged {nodes : List Expr} {samples : Expr → List Float32} {r : Raised}
    (h : r ∈ nodes.filterMap fun e => Kernel.report? e (samples e)) : r.Tagged := by
  obtain ⟨e, -, hr⟩ := List.mem_filterMap.1 h
  rw [Kernel.report?] at hr
  split at hr
  · split at hr <;> cases hr
    rfl
  · cases hr

/-- Under the tag of a meter a block with samples is reported by the meters of that tag. -/
theorem map_report {tag : ProbeTag} (kind : tag.kind = .meter) {samples : Expr → List Float32}
    (taken : ∀ e, samples e ≠ []) (nodes : List Expr) :
    ((nodes.filterMap fun e => Kernel.report? e (samples e)).filter (·.tag = tag)).map
        (fun r => r.build r.tag.name) =
      (nodes.filter fun e => e.op.tap?.map Tap.tag = some tag).map fun e =>
        .meter tag.name (Extremes.ofSamples (samples e)).min
          (Extremes.ofSamples (samples e)).max := by
  induction nodes with
  | nil => rfl
  | cons e nodes ih =>
    obtain ⟨tagKind, tagName⟩ := tag
    cases kind
    obtain ⟨l, op, key, cs⟩ := e
    cases op with
    | tap t =>
      cases t with
      | meter name =>
        by_cases hname : name = tagName
        · subst hname
          simpa [Kernel.report?, Expr.op, taken, Op.tap?, Tap.tag, Tap.kind, Tap.name] using ih
        · simpa [Kernel.report?, Expr.op, taken, Op.tap?, Tap.tag, Tap.kind, Tap.name, hname]
            using ih
      | scope name size =>
        simpa [Kernel.report?, Expr.op, Op.tap?, Tap.tag, Tap.kind] using ih
      | fft name size =>
        simpa [Kernel.report?, Expr.op, Op.tap?, Tap.tag, Tap.kind] using ih
    | _ => simpa [Kernel.report?, Expr.op, Op.tap?] using ih

theorem filterMap_report_nil {samples : Expr → List Float32} (none : ∀ e, samples e = [])
    (nodes : List Expr) : (nodes.filterMap fun e => Kernel.report? e (samples e)) = [] := by
  rw [List.filterMap_eq_nil_iff]
  intro e _
  rw [Kernel.report?]
  split
  · rw [if_pos (none e)]
  · rfl

end Patchbay
