import Mathlib
import Patchbay.Proofs.Playback

/-!
# The order of a visit

A visit comes to the children of a node before the node, from left to right, and to a shared node as
often as it is met. The nodes of a program stand in the order in which a visit meets them first, and
a program that cannot be built fails at the first node that cannot be set up: a scope or a spectrum
over no samples, a delay line whose length is beyond counting, or any of them that no memory could
hold.
-/

set_option autoImplicit false

namespace Patchbay

namespace Expr

variable {α : Type}

mutual

/-- A node and all nodes under it in the order of a visit. -/
def visit : Expr → List Expr
  | node l op key cs => visitAll cs ++ [node l op key cs]

def visitAll : List Expr → List Expr
  | [] => []
  | c :: cs => visit c ++ visitAll cs

end

mutual

theorem mem_visit (e f : Expr) : f ∈ visit e ↔ f ∈ parts e := by
  obtain ⟨l, op, key, cs⟩ := e
  rw [visit, parts, List.mem_append, List.mem_singleton, List.mem_cons, mem_visitAll, or_comm]

theorem mem_visitAll (cs : List Expr) (f : Expr) : f ∈ visitAll cs ↔ f ∈ partsAll cs := by
  match cs with
  | [] => exact Iff.rfl
  | c :: cs => rw [visitAll, partsAll, List.mem_append, List.mem_append, mem_visit, mem_visitAll]

end

theorem findSome?_append_of_subset {met later : List Expr} (h : later ⊆ met) (p : Expr → Option α) :
    (met.reverse ++ later).findSome? p = met.reverse.findSome? p := by
  rw [List.findSome?_append]
  cases hmet : met.reverse.findSome? p with
  | some f => rfl
  | none =>
    rw [Option.none_or, List.findSome?_eq_none_iff]
    exact fun f hf => List.findSome?_eq_none_iff.1 hmet f (by simpa using h hf)

mutual

theorem findSome?_collect {s : Set Expr} (hs : Coherent s) (p : Expr → Option α) (e : Expr)
    (met : List Expr) (hm : ∀ f ∈ met, f ∈ s) (he : ∀ f ∈ parts e, f ∈ s) (ho : Ordered met) :
    (collect met e).reverse.findSome? p = (met.reverse ++ visit e).findSome? p := by
  obtain ⟨l, op, key, cs⟩ := e
  rw [collect]
  split
  · next h =>
    obtain ⟨g, hg, hl⟩ := List.any_eq_true.1 h
    obtain rfl : g = node l op key cs := hs (hm g hg) (he _ (mem_parts _)) (of_decide_eq_true hl)
    have hsub := parts_subset_of_ordered met ho _ hg
    rw [findSome?_append_of_subset fun f hf => hsub ((mem_visit _ f).1 hf)]
  · have hc : ∀ f ∈ partsAll cs, f ∈ s := fun f hf => he f (by rw [parts]; simp [hf])
    rw [List.reverse_cons, List.findSome?_append, findSome?_collectAll hs p cs met hm hc ho, visit,
      ← List.append_assoc]
    exact List.findSome?_append.symm

theorem findSome?_collectAll {s : Set Expr} (hs : Coherent s) (p : Expr → Option α) (cs : List Expr)
    (met : List Expr) (hm : ∀ f ∈ met, f ∈ s) (he : ∀ f ∈ partsAll cs, f ∈ s) (ho : Ordered met) :
    (collectAll met cs).reverse.findSome? p = (met.reverse ++ visitAll cs).findSome? p := by
  match cs with
  | [] => rw [collectAll, visitAll, List.append_nil]
  | c :: cs =>
    have hc : ∀ f ∈ parts c, f ∈ s := fun f hf => he f (by simp [partsAll, hf])
    obtain ⟨hord, hmem⟩ := collect_spec s hs c met hm hc ho
    have hm' : ∀ f ∈ collect met c, f ∈ s := fun f hf => ((hmem f).1 hf).elim (hm f) (hc f)
    rw [collectAll, findSome?_collectAll hs p cs (collect met c) hm'
      (fun f hf => he f (by simp [partsAll, hf])) hord, List.findSome?_append,
      findSome?_collect hs p c met hm hc ho, visitAll, ← List.append_assoc]
    exact List.findSome?_append.symm

end

/-- What comes first in the order of the slots comes first on a visit. -/
theorem findSome?_nodesOf {roots : List Expr} (shared : Coherent (under roots))
    (p : Expr → Option α) : (nodesOf roots).findSome? p = (visitAll roots).findSome? p :=
  findSome?_collectAll shared p roots [] (by simp) (fun _ h => h) trivial

/-- The tag of a scope or a spectrum over no samples. -/
def hollow? (e : Expr) : Option ProbeTag :=
  match e.op with
  | .tap (.scope name 0) => some ⟨.scope, name⟩
  | .tap (.fft name 0) => some ⟨.fft, name⟩
  | _ => none

/-- What stops a node for want of memory: the samples of its delay line are no word, or no address
space has room for those of its line or its window. -/
def fault? (rate : Float32) (e : Expr) : Option KernelFault :=
  match e.op with
  | .delay maxMs =>
    if DelayLine.samplesFor rate (maxMs / 1000.0) = 0 then some .emptyDelayLine
    else if HasRoom (DelayLine.samplesFor rate (maxMs / 1000.0)) then none
    else some .tooLong
  | .tap (.scope _ size) => if HasRoom size then none else some .tooLong
  | .tap (.fft _ size) => if HasRoom size then none else some .tooLong
  | _ => none

/-- A visit comes to a node, and all nodes that it meets before can be set up. -/
def Reached (rate : Float32) (roots : List Expr) (e : Expr) : Prop :=
  ∃ before after, visitAll roots = before ++ e :: after ∧
    ∀ f ∈ before, f.hollow? = none ∧ f.fault? rate = none

/-- Why a node cannot be set up. -/
def obstacle? (rate : Float32) (e : Expr) : Option Kernel.SetupError :=
  cause? (Kernel.setup e.op e.key rate)

/-- The first obstacle that a visit meets. -/
def failure? (rate : Float32) (roots : List Expr) : Option Kernel.SetupError :=
  (visitAll roots).findSome? (obstacle? rate)

theorem failure?_cons (rate : Float32) (c : Expr) (cs : List Expr) :
    failure? rate (c :: cs) = (failure? rate [c]).or (failure? rate cs) := by
  simp only [failure?, visitAll, List.append_nil, List.findSome?_append]

/-- A node comes after all that is under it. -/
theorem failure?_node (rate : Float32) (l : Label) (op : Op) (key : Option String)
    (cs : List Expr) : failure? rate [node l op key cs] =
      (failure? rate cs).or (cause? (Kernel.setup op key rate)) := by
  rw [failure?, visitAll, visitAll, List.append_nil, visit, List.findSome?_append,
    List.findSome?_singleton]
  rfl

theorem failure?_eq_none_iff {rate : Float32} {e : Expr} :
    failure? rate [e] = none ↔ ∀ f ∈ parts e, ∃ k, Kernel.setup f.op f.key rate = .ok k := by
  rw [failure?, visitAll, visitAll, List.append_nil, List.findSome?_eq_none_iff]
  simp only [mem_visit, obstacle?, cause?_eq_none_iff]

end Expr

open Patchbay.Expr

variable {rate : Float32} {left right : Expr} {err : Kernel.SetupError}

/-- A node over no samples is refused, one that asks for too many stops the visit. -/
theorem obstacle?_eq_some_iff {e : Expr} :
    e.obstacle? rate = some err ↔ (∃ tag, e.hollow? = some tag ∧ err = .emptyWindow tag) ∨
      ∃ f, e.fault? rate = some f ∧ err = .fault f := by
  obtain ⟨l, op, key, cs⟩ := e
  rw [obstacle?, cause?_eq_some_iff]
  simp only [Expr.op, hollow?, fault?]
  cases op with
  | delay maxMs =>
    simp only [Kernel.setup, DelayLine.ofTime, DelayLine.new]
    by_cases hzero : DelayLine.samplesFor rate (maxMs / 1000.0) = 0
    · simp [hzero, eq_comm]
    by_cases hroom : HasRoom (DelayLine.samplesFor rate (maxMs / 1000.0))
    · simp [hzero, hroom, Nat.pos_of_ne_zero hzero]
    · simp [hzero, hroom, Nat.pos_of_ne_zero hzero, eq_comm]
  | tap t =>
    cases t with
    | meter name => simp [Kernel.setup]
    | scope name size | fft name size =>
      have hnone : HasRoom 0 := by decide
      cases size with
      | zero => simp [Kernel.setup, Kernel.window, hnone, Tap.tag, Tap.kind, Tap.name, eq_comm]
      | succ n =>
        by_cases hroom : HasRoom (n + 1)
        · simp [Kernel.setup, Kernel.window, hroom]
        · simp [Kernel.setup, Kernel.window, hroom, eq_comm]
  | _ => simp [Kernel.setup]

/-- A line of `10 ^ 17` milliseconds has more samples than an address space has room for, though
their number is a word. -/
example : obstacle? 48000.0 (.node ⟨.free, 0⟩ (.delay 1e17) none []) = some (.fault .tooLong) :=
  obstacle?_eq_some_iff.2 (.inr ⟨.tooLong, by decide +kernel, rfl⟩)

theorem obstacle?_eq_none_iff {e : Expr} :
    e.obstacle? rate = none ↔ e.hollow? = none ∧ e.fault? rate = none := by
  simp only [Option.eq_none_iff_forall_ne_some, ne_eq, obstacle?_eq_some_iff, not_or, not_exists,
    not_and]
  constructor
  · intro h
    exact ⟨fun tag htag => (h _).1 tag htag rfl, fun f hf => (h _).2 f hf rfl⟩
  · rintro ⟨htag, hf⟩ err
    exact ⟨fun tag h => absurd h (htag tag), fun f h => absurd h (hf f)⟩

theorem Expr.Reached.mem_under {roots : List Expr} {e : Expr} (h : Reached rate roots e) :
    e ∈ under roots := by
  obtain ⟨before, after, hsplit, -⟩ := h
  rw [under, Set.mem_ofPred_eq, ← mem_visitAll, hsplit]
  simp

/-- The first obstacle of a visit is that of a node which it reaches. -/
theorem failure?_eq_some_iff {roots : List Expr} :
    failure? rate roots = some err ↔
      ∃ n, Reached rate roots n ∧ n.obstacle? rate = some err := by
  simp only [failure?, List.findSome?_eq_some_iff, obstacle?_eq_none_iff, Reached]
  constructor
  · rintro ⟨before, n, after, hsplit, hn, hbefore⟩
    exact ⟨n, ⟨before, after, hsplit, hbefore⟩, hn⟩
  · rintro ⟨n, ⟨before, after, hsplit, hbefore⟩, hn⟩
    exact ⟨before, n, after, hsplit, hn, hbefore⟩

/-- If some node cannot be set up, a visit comes to a first one. -/
theorem exists_reached {roots : List Expr} {e : Expr} (he : e ∈ under roots)
    (h : e.obstacle? rate ≠ none) :
    ∃ n err, Reached rate roots n ∧ n.obstacle? rate = some err := by
  cases hfirst : failure? rate roots with
  | none => exact absurd (List.findSome?_eq_none_iff.1 hfirst e ((mem_visitAll roots e).2 he)) h
  | some err =>
    obtain ⟨n, hn⟩ := failure?_eq_some_iff.1 hfirst
    exact ⟨n, err, hn⟩

/-- A program cannot be built if a visit meets an obstacle. -/
theorem build_error_iff (shared : Coherent (under [left, right])) :
    Program.build left right rate = .error err ↔ failure? rate [left, right] = some err := by
  have hcell : (fun e => cause? (Program.cellOf (nodesOf [left, right]) rate e)) =
      obstacle? rate := by
    funext e
    rw [Program.cellOf, obstacle?]
    cases Kernel.setup e.op e.key rate <;> rfl
  have hbuild : Program.build left right rate = .error err ↔
      (nodesOf [left, right]).mapM (Program.cellOf (nodesOf [left, right]) rate) = .error err := by
    rw [Program.build]
    cases (nodesOf [left, right]).mapM (Program.cellOf (nodesOf [left, right]) rate) <;>
      simp [bind, Except.bind, pure, Except.pure]
  rw [hbuild, mapM_error_iff, hcell, findSome?_nodesOf shared, failure?]

end Patchbay
