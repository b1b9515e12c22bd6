import Mathlib
import Patchbay.Proofs.Enumeration

/-!
# One slot for every node

A lowering walks one root after the other and remembers two things: the nodes that the walk of this
root has entered, and the slots of the nodes that have a cell. A node is entered before its children
and gets its cell behind them. The program that comes of it is the one that is built from all nodes
at once, so each distinct node has one cell, which reads the slots of its children.
-/

set_option autoImplicit false

namespace Patchbay

open Patchbay.Expr

namespace Expr

/-! ## Walks -/

mutual

/-- The labels that have been entered after a walk of an expression, and the nodes that the walk
hands out. -/
def walk (seen : List Label) : Expr → List Label × List Expr
  | node l op key cs =>
    if l ∈ seen then (seen, [])
    else
      let (seen, out) := walkAll (l :: seen) cs
      (seen, out ++ [node l op key cs])

def walkAll (seen : List Label) : List Expr → List Label × List Expr
  | [] => (seen, [])
  | c :: cs =>
    let (seen, out) := walk seen c
    let (seen, rest) := walkAll seen cs
    (seen, out ++ rest)

end

mutual

/-- What is entered is handed out in the end. -/
theorem mem_walk (e : Expr) (seen : List Label) (l : Label) :
    l ∈ (walk seen e).1 ↔ l ∈ seen ∨ ∃ f ∈ (walk seen e).2, f.label = l := by
  obtain ⟨m, op, key, cs⟩ := e
  rw [walk]
  split
  · simp
  · simp only [mem_walkAll cs (m :: seen) l, List.mem_cons, List.mem_append, List.not_mem_nil,
      or_false]
    constructor
    · rintro ((rfl | h) | ⟨f, hf, hl⟩)
      · exact .inr ⟨_, .inr rfl, rfl⟩
      · exact .inl h
      · exact .inr ⟨f, .inl hf, hl⟩
    · rintro (h | ⟨f, hf | rfl, hl⟩)
      · exact .inl (.inr h)
      · exact .inr ⟨f, hf, hl⟩
      · exact .inl (.inl hl.symm)

theorem mem_walkAll (cs : List Expr) (seen : List Label) (l : Label) :
    l ∈ (walkAll seen cs).1 ↔ l ∈ seen ∨ ∃ f ∈ (walkAll seen cs).2, f.label = l := by
  match cs with
  | [] => simp [walkAll]
  | c :: cs =>
    simp only [walkAll, mem_walkAll cs, mem_walk c, List.mem_append]
    constructor
    · rintro ((h | ⟨f, hf, hl⟩) | ⟨f, hf, hl⟩)
      · exact .inl h
      · exact .inr ⟨f, .inl hf, hl⟩
      · exact .inr ⟨f, .inr hf, hl⟩
    · rintro (h | ⟨f, hf | hf, hl⟩)
      · exact .inl (.inl h)
      · exact .inl (.inr ⟨f, hf, hl⟩)
      · exact .inr ⟨f, hf, hl⟩

end

variable {s : Set Expr}

-- A node that has been entered and not handed out stands above the walk. None is below itself, so of
-- the nodes ahead exactly those have been entered that have been met.
mutual

theorem walk_collect (hs : Coherent s) (e : Expr) (met : List Expr) (seen : List Label)
    (hm : ∀ f ∈ met, f ∈ s) (he : ∀ f ∈ parts e, f ∈ s) (ho : Ordered met)
    (hseen : ∀ f ∈ parts e, f.label ∈ seen ↔ f ∈ met) :
    (collect met e).reverse = met.reverse ++ (walk seen e).2 := by
  obtain ⟨l, op, key, cs⟩ := e
  have hentered : (met.any fun f => f.label = l) = true ↔ l ∈ seen := by
    rw [List.any_eq_true]
    constructor
    · rintro ⟨f, hf, hl⟩
      obtain rfl : f = node l op key cs := hs (hm f hf) (he _ (mem_parts _)) (of_decide_eq_true hl)
      exact (hseen _ (mem_parts _)).2 hf
    · intro h
      exact ⟨_, (hseen _ (mem_parts _)).1 h, decide_eq_true rfl⟩
  rw [collect, walk]
  by_cases h : l ∈ seen
  · rw [if_pos (hentered.2 h), if_pos h, List.append_nil]
  · have hc : ∀ f ∈ partsAll cs, f ∈ s := fun f hf => he f (by rw [parts]; simp [hf])
    have hbelow : ∀ f ∈ partsAll cs, f.label ∈ l :: seen ↔ f ∈ met := by
      intro f hf
      have hne : f.label ≠ l := by
        intro hl
        obtain rfl : f = node l op key cs := hs (hc f hf) (he _ (mem_parts _)) hl
        exact not_mem_partsAll_children _ hf
      rw [List.mem_cons, or_iff_right hne]
      exact hseen f (by rw [parts]; simp [hf])
    rw [if_neg (mt hentered.1 h), if_neg h, List.reverse_cons,
      walkAll_collect hs cs met (l :: seen) hm hc ho hbelow, List.append_assoc]

theorem walkAll_collect (hs : Coherent s) (cs : List Expr) (met : List Expr) (seen : List Label)
    (hm : ∀ f ∈ met, f ∈ s) (he : ∀ f ∈ partsAll cs, f ∈ s) (ho : Ordered met)
    (hseen : ∀ f ∈ partsAll cs, f.label ∈ seen ↔ f ∈ met) :
    (collectAll met cs).reverse = met.reverse ++ (walkAll seen cs).2 := by
  match cs with
  | [] => simp [collectAll, walkAll]
  | c :: cs =>
    have hc : ∀ f ∈ parts c, f ∈ s := fun f hf => he f (by simp [partsAll, hf])
    have hrest : ∀ f ∈ partsAll cs, f ∈ s := fun f hf => he f (by simp [partsAll, hf])
    obtain ⟨hord, hmem⟩ := collect_spec s hs c met hm hc ho
    have hm' : ∀ f ∈ collect met c, f ∈ s := fun f hf => ((hmem f).1 hf).elim (hm f) (hc f)
    have hfirst := walk_collect hs c met seen hm hc ho fun f hf => hseen f (by simp [partsAll, hf])
    have hmet (f : Expr) : f ∈ collect met c ↔ f ∈ met ∨ f ∈ (walk seen c).2 := by
      rw [← List.mem_reverse, hfirst, List.mem_append, List.mem_reverse]
    have hseen' : ∀ f ∈ partsAll cs, f.label ∈ (walk seen c).1 ↔ f ∈ collect met c := by
      intro f hf
      rw [mem_walk, hmet, hseen f (by simp [partsAll, hf])]
      refine or_congr_right ⟨?_, fun h => ⟨f, h, rfl⟩⟩
      rintro ⟨g, hg, hl⟩
      rwa [← hs (hm' g ((hmet g).2 (.inr hg))) (hrest f hf) hl]
    rw [collectAll, walkAll, walkAll_collect hs cs _ _ hm' hrest hord hseen', hfirst,
      List.append_assoc]

end

/-- A walk that starts afresh hands out each node once. -/
theorem walk_eq {e : Expr} (hs : Coherent (under [e])) : (walk [] e).2 = e.nodes := by
  have hparts : ∀ f ∈ parts e, f ∈ under [e] := fun f hf => (mem_partsAll f _).2 ⟨e, by simp, hf⟩
  have h := walk_collect hs e [] [] (by simp) hparts trivial (by simp)
  rw [List.reverse_nil, List.nil_append] at h
  rw [nodes, nodesOf, collectAll, collectAll, h]

end Expr

namespace Program

variable {done nodes : List Expr} {e : Expr} {rate : Float32}

/-- The slots of as many children as are taken; 0 for each that is missing. -/
def arguments (slot : Expr → Nat) (e : Expr) : List Nat :=
  ((e.children.take e.op.arity).map slot).rightpad e.op.arity 0

/-! ## Lowering -/

/-- A program on the way, and the slots of the nodes that have a cell. -/
structure Lowering where
  program : Program
  slots : Label → Option Nat

namespace Lowering

def start (rate : Float32) : Lowering := ⟨⟨[zeroCell], #[0.0], [], [], 0, 0, rate⟩, fun _ => none⟩

def slot (s : Lowering) (e : Expr) : Nat := (s.slots e.label).getD 0

/-- A cell at the end for a node. -/
def push (s : Lowering) (e : Expr) : Except Kernel.SetupError Lowering := do
  let kernel ← Kernel.setup e.op e.key s.program.sampleRate
  let slot := s.program.cells.length
  return ⟨{ s.program with
    cells := s.program.cells ++ [⟨kernel, arguments s.slot e⟩]
    values := s.program.values.push 0.0
    constants := s.program.constants ++ ((constKey? e).map (·, slot)).toList
    taps := s.program.taps ++ (e.op.tap?.map Tap.tag).toList },
    Function.update s.slots e.label (some slot)⟩

/-- What becomes of a node that a walk hands out. -/
def place (s : Lowering) (e : Expr) : Except Kernel.SetupError Lowering :=
  match s.slots e.label with
  | some _ => .ok s
  | none => s.push e

end Lowering

/-- Each root is walked afresh; the slots are kept from one to the next. -/
def lower (left right : Expr) (rate : Float32) : Except Kernel.SetupError Lowering := do
  let s ← (walk [] left).2.foldlM Lowering.place (.start rate)
  let t ← (walk [] right).2.foldlM Lowering.place s
  return { t with program := { t.program with left := s.slot left, right := t.slot right } }

/-! ## The same program -/

theorem getElem?_arguments (slot : Expr → Nat) {i : Nat} (hi : i < e.op.arity) :
    (arguments slot e)[i]? = some (e.children[i]?.elim 0 slot) := by
  rw [arguments, List.rightpad, List.getElem?_append]
  simp only [List.length_map, List.length_take, List.getElem?_map, List.getElem?_take_of_lt hi,
    List.getElem?_replicate]
  by_cases h : i < e.children.length
  · rw [if_pos (by omega), List.getElem?_eq_getElem h]
    rfl
  · rw [if_neg (by omega), if_pos (by omega), List.getElem?_eq_none (by omega)]
    rfl

theorem length_arguments (slot : Expr → Nat) (e : Expr) :
    (arguments slot e).length = e.op.arity := by
  rw [arguments, List.length_rightpad, List.length_map, List.length_take]
  omega

theorem argSlots_eq (nodes : List Expr) (e : Expr) :
    argSlots nodes e = arguments (slotOf nodes) e := by
  apply List.ext_getElem?
  intro i
  by_cases hi : i < e.op.arity
  · rw [getElem?_arguments _ hi, argSlots, List.getElem?_map, List.getElem?_range hi,
      Option.map_some]
    cases e.children[i]? <;> rfl
  · rw [List.getElem?_eq_none (by rw [argSlots_length]; omega),
      List.getElem?_eq_none (by rw [length_arguments]; omega)]

/-- More nodes behind leave the slots of those before. -/
theorem slotOf_append (done rest : List Expr) (he : e ∈ done) :
    slotOf (done ++ rest) e = slotOf done e := by
  have hfound : (done.findIdx? (·.label = e.label)).isSome := by
    rw [List.findIdx?_isSome, List.any_eq_true]
    exact ⟨e, he, decide_eq_true rfl⟩
  obtain ⟨i, hi⟩ := Option.isSome_iff_exists.1 hfound
  simp [slotOf, List.findIdx?_append, hi]

/-- The table of the slots of some nodes. -/
def slotTable (nodes : List Expr) (l : Label) : Option Nat :=
  (nodes.findIdx? (·.label = l)).map (· + 1)

theorem slotTable_getD (nodes : List Expr) (e : Expr) :
    (slotTable nodes e.label).getD 0 = slotOf nodes e := by
  rw [slotTable, slotOf]
  cases nodes.findIdx? (·.label = e.label) <;> rfl

/-- A lowering that has come so far as to have cells for some nodes. -/
def staged (rate : Float32) (done : List Expr) (cells : List Cell) : Lowering :=
  ⟨⟨zeroCell :: cells, .replicate (cells.length + 1) 0.0, keyedSlots done,
    (tapsOf done).map Tap.tag, 0, 0, rate⟩, slotTable done⟩

theorem staged_slot (rate : Float32) (done : List Expr) (cells : List Cell) :
    (staged rate done cells).slot = slotOf done := funext fun e => slotTable_getD done e

theorem arguments_congr {slot slot' : Expr → Nat} (h : ∀ c ∈ e.children, slot c = slot' c) :
    arguments slot e = arguments slot' e := by
  rw [arguments, arguments, List.map_congr_left fun c hc => h c (List.mem_of_mem_take hc)]

theorem keyedSlots_concat (hnew : ∀ f ∈ done, f.label ≠ e.label) :
    keyedSlots (done ++ [e]) =
      keyedSlots done ++ ((constKey? e).map (·, done.length + 1)).toList := by
  have hlast : slotOf (done ++ [e]) e = done.length + 1 := slotOf_of_split rfl hnew
  rw [keyedSlots, List.filterMap_append, List.filterMap_cons, List.filterMap_nil, hlast,
    List.filterMap_congr fun f hf => by rw [slotOf_append done [e] hf]]
  cases constKey? e <;> rfl

theorem slotTable_concat (hnew : ∀ f ∈ done, f.label ≠ e.label) :
    slotTable (done ++ [e]) =
      Function.update (slotTable done) e.label (some (done.length + 1)) := by
  funext l
  rw [slotTable, List.findIdx?_append, List.findIdx?_singleton]
  by_cases h : l = e.label
  · subst h
    have hnone : done.findIdx? (·.label = e.label) = none :=
      List.findIdx?_eq_none_iff.2 fun f hf => decide_eq_false (hnew f hf)
    simp [hnone]
  · simp [Function.update_of_ne h, slotTable, Ne.symm h]

/-- A node that has no cell gets one behind the others. -/
theorem push_staged {cells : List Cell} (hlen : cells.length = done.length)
    (hnew : ∀ f ∈ done, f.label ≠ e.label) :
    (staged rate done cells).push e = (Kernel.setup e.op e.key rate).map fun k =>
      staged rate (done ++ [e]) (cells ++ [⟨k, arguments (slotOf done) e⟩]) := by
  have htaps : (tapsOf (done ++ [e])).map Tap.tag =
      (tapsOf done).map Tap.tag ++ (e.op.tap?.map Tap.tag).toList := by
    rw [tapsOf, List.filterMap_append, List.map_append, List.filterMap_cons]
    cases e.op.tap? <;> rfl
  have hslot : (zeroCell :: cells).length = done.length + 1 := by rw [List.length_cons, hlen]
  have hvalues (c : Cell) : Array.replicate ((cells ++ [c]).length + 1) (0.0 : Float32) =
      (Array.replicate (cells.length + 1) 0.0).push 0.0 := by
    rw [List.length_append, List.length_singleton, Array.replicate_succ]
  rw [Lowering.push, staged_slot]
  cases hk : Kernel.setup e.op e.key rate with
  | error err => simp [staged, hk, Except.map]
  | ok k =>
    simp only [staged, hk, ok_bind, Except.map, keyedSlots_concat hnew, slotTable_concat hnew,
      htaps, hslot, hvalues]
    rfl

theorem place_staged_of_seen {cells : List Cell} (h : done.any (·.label = e.label) = true) :
    (staged rate done cells).place e = .ok (staged rate done cells) := by
  obtain ⟨i, hi⟩ := Option.isSome_iff_exists.1 (List.findIdx?_isSome.trans h)
  have hslot : (staged rate done cells).slots e.label = some (i + 1) := by
    simp [staged, slotTable, hi]
  rw [Lowering.place, hslot]

theorem place_staged_of_new {cells : List Cell} (hnew : ∀ f ∈ done, f.label ≠ e.label) :
    (staged rate done cells).place e = (staged rate done cells).push e := by
  have hnone : done.findIdx? (·.label = e.label) = none :=
    List.findIdx?_eq_none_iff.2 fun f hf => decide_eq_false (hnew f hf)
  have hslot : (staged rate done cells).slots e.label = none := by simp [staged, slotTable, hnone]
  rw [Lowering.place, hslot]

/-- What a lowering comes to that has been handed some of the nodes of a program. -/
def reached (nodes : List Expr) (rate : Float32) (done : List Expr) :
    Except Kernel.SetupError Lowering :=
  (done.mapM (cellOf nodes rate)).map (staged rate done)

theorem reached_place (rate : Float32) (hn : Listed nodes)
    (hpre : Inspection.note done e <+: nodes) :
    (reached nodes rate done >>= (Lowering.place · e)) =
      reached nodes rate (Inspection.note done e) := by
  rw [Inspection.note] at hpre ⊢
  by_cases h : done.any (·.label = e.label) = true
  · rw [if_pos h, reached]
    cases done.mapM (cellOf nodes rate) with
    | error err => rfl
    | ok cells => exact place_staged_of_seen h
  · rw [if_neg h] at hpre ⊢
    obtain ⟨rest, hrest⟩ := hpre
    have hsplit : nodes = done ++ e :: rest := by rw [← hrest, List.append_assoc]; rfl
    obtain ⟨hchildren, hnew⟩ := hn _ _ _ hsplit
    have hargs : argSlots nodes e = arguments (slotOf done) e := by
      rw [argSlots_eq, hsplit]
      exact arguments_congr fun c hc => slotOf_append done _ (hchildren c hc)
    rw [reached, reached, List.mapM_append]
    cases hm : done.mapM (cellOf nodes rate) with
    | error err => rfl
    | ok cells =>
      have hlen := ((mapM_ok_iff _ _ _).1 hm).length_eq.symm
      show (staged rate done cells).place e = _
      rw [place_staged_of_new hnew, push_staged hlen hnew, ok_bind, List.mapM_cons, cellOf, hargs]
      cases Kernel.setup e.op e.key rate <;> rfl

theorem reached_foldlM (rate : Float32) (hn : Listed nodes) (es done : List Expr)
    (hpre : es.foldl Inspection.note done <+: nodes) :
    (reached nodes rate done >>= es.foldlM Lowering.place) =
      reached nodes rate (es.foldl Inspection.note done) := by
  induction es generalizing done with
  | nil => exact bind_pure _
  | cons e es ih =>
    have hstep := reached_place rate hn
      ((Inspection.prefix_foldl_note es (Inspection.note done e)).trans hpre)
    rw [List.foldl_cons, ← ih _ hpre, ← hstep, bind_assoc]
    rfl

section Pair

variable {left right : Expr}

theorem coherent_channels (shared : Coherent (under [left, right])) :
    Coherent (under [left]) ∧ Coherent (under [right]) :=
  ⟨shared.mono (under_singleton_subset (by simp)), shared.mono (under_singleton_subset (by simp))⟩

/-- The nodes of one root, and behind them those of the other that are new. -/
theorem nodesOf_pair (shared : Coherent (under [left, right])) :
    left.nodes.foldl Inspection.note [] = left.nodes ∧
      right.nodes.foldl Inspection.note left.nodes = nodesOf [left, right] := by
  obtain ⟨hl, hr⟩ := coherent_channels shared
  constructor
  · rw [Inspection.foldl_note_nodes hl, nodes_eq_visit hl]
  · rw [Inspection.foldl_note_nodes hr, nodes_eq_visit hl, nodesOf_eq shared, visitAll, visitAll,
      visitAll, List.append_nil, List.foldl_append]

theorem reached_pair (shared : Coherent (under [left, right])) (rate : Float32) :
    left.nodes.foldlM Lowering.place (.start rate) =
        reached (nodesOf [left, right]) rate left.nodes ∧
      (reached (nodesOf [left, right]) rate left.nodes >>= right.nodes.foldlM Lowering.place) =
        reached (nodesOf [left, right]) rate (nodesOf [left, right]) := by
  obtain ⟨hfirst, hboth⟩ := nodesOf_pair shared
  have hn := listed_nodesOf _ shared
  have hpre : left.nodes <+: nodesOf [left, right] := hboth ▸ Inspection.prefix_foldl_note _ _
  have hleft := reached_foldlM rate hn left.nodes [] (hfirst.symm ▸ hpre)
  have hright := reached_foldlM rate hn right.nodes left.nodes (hboth ▸ List.prefix_rfl)
  rw [hfirst] at hleft
  rw [hboth] at hright
  exact ⟨hleft, hright⟩

/-- The slot of the left root is known before the right root is walked. -/
theorem slotOf_left (shared : Coherent (under [left, right])) :
    slotOf left.nodes left = slotOf (nodesOf [left, right]) left := by
  obtain ⟨rest, hrest⟩ : left.nodes <+: nodesOf [left, right] :=
    (nodesOf_pair shared).2 ▸ Inspection.prefix_foldl_note _ _
  have hmem : left ∈ left.nodes :=
    (mem_nodesOf _ (coherent_channels shared).1 left).2 (by simp [under, partsAll, mem_parts])
  rw [← hrest, slotOf_append _ rest hmem]

/-- A lowering comes to the program that is built from all nodes at once, and to their slots. -/
theorem lower_eq (shared : Coherent (under [left, right])) (rate : Float32) :
    lower left right rate =
      (build left right rate).map fun p => ⟨p, slotTable (nodesOf [left, right])⟩ := by
  obtain ⟨hl, hr⟩ := coherent_channels shared
  obtain ⟨hleft, hright⟩ := reached_pair shared rate
  rw [lower, walk_eq hl, walk_eq hr, hleft, build]
  rw [reached] at hright ⊢
  -- the left root may be where it fails; the right one goes on from the cells of the left
  cases hm : left.nodes.mapM (cellOf (nodesOf [left, right]) rate) with
  | error err =>
    rw [hm, reached] at hright
    cases ha : (nodesOf [left, right]).mapM (cellOf (nodesOf [left, right]) rate) with
    | error err' =>
      rw [ha] at hright
      obtain rfl : err = err' := Except.error.inj hright
      rfl
    | ok cells =>
      rw [ha] at hright
      cases hright
  | ok cells =>
    rw [hm] at hright
    have hrun : right.nodes.foldlM Lowering.place (staged rate left.nodes cells) = _ := hright
    simp only [Except.map, ok_bind]
    rw [hrun, staged_slot, slotOf_left shared, reached]
    cases (nodesOf [left, right]).mapM (cellOf (nodesOf [left, right]) rate) with
    | error err => rfl
    | ok cells =>
      simp only [Except.map, ok_bind, staged_slot]
      rfl

end Pair

/-! ## Slots -/

theorem child_mem_under {roots : List Expr} {c : Expr} (he : e ∈ under roots)
    (hc : c ∈ e.children) : c ∈ under roots :=
  partsAll_trans roots e he (mem_parts_child hc (mem_parts c))

theorem slotOf_bijOn {roots : List Expr} (hs : Coherent (under roots)) :
    Set.BijOn (slotOf (nodesOf roots)) (under roots) (Set.Icc 1 (nodesOf roots).length) := by
  have hlist := listed_nodesOf roots hs
  have hplace {e : Expr} (he : e ∈ under roots) :
      ∃ i, ∃ hi : i < (nodesOf roots).length, (nodesOf roots)[i] = e :=
    List.getElem_of_mem ((mem_nodesOf roots hs e).2 he)
  refine ⟨fun e he => ?_, fun e he f hf heq => ?_, fun slot hslot => ?_⟩
  · obtain ⟨i, hi, rfl⟩ := hplace he
    rw [slotOf_getElem hlist i hi, Set.mem_Icc]
    omega
  · obtain ⟨i, hi, rfl⟩ := hplace he
    obtain ⟨j, hj, rfl⟩ := hplace hf
    rw [slotOf_getElem hlist i hi, slotOf_getElem hlist j hj, Nat.add_right_cancel_iff] at heq
    subst heq
    rfl
  · obtain ⟨i, rfl⟩ := Nat.exists_eq_add_of_le' (Set.mem_Icc.1 hslot).1
    have hi : i < (nodesOf roots).length := (Set.mem_Icc.1 hslot).2
    exact ⟨_, (mem_nodesOf roots hs _).1 (List.getElem_mem hi), slotOf_getElem hlist i hi⟩

/-- The list of the nodes is as long as they are many. -/
theorem length_nodesOf {roots : List Expr} (hs : Coherent (under roots)) :
    (nodesOf roots).length = (under roots).ncard := by
  rw [(slotOf_bijOn hs).ncard_eq, ← Finset.coe_Icc, Set.ncard_coe_finset, Nat.card_Icc,
    Nat.add_sub_cancel]

theorem mem_arguments {slot : Expr → Nat} {n : Nat} (h : n ∈ arguments slot e) :
    n = 0 ∨ ∃ c ∈ e.children, n = slot c := by
  rw [arguments, List.rightpad, List.mem_append, List.mem_replicate, List.mem_map] at h
  obtain ⟨c, hc, rfl⟩ | ⟨-, rfl⟩ := h
  · exact .inr ⟨c, List.mem_of_mem_take hc, rfl⟩
  · exact .inl rfl

theorem arguments_lt (hlist : Listed nodes) (he : e ∈ nodes) :
    ∀ n ∈ arguments (slotOf nodes) e, n < slotOf nodes e := by
  obtain ⟨pre, post, hsplit⟩ := List.append_of_mem he
  obtain ⟨hchildren, hnew⟩ := hlist _ _ _ hsplit
  intro n hn
  rw [slotOf_of_split hsplit hnew, Nat.lt_succ_iff]
  obtain rfl | ⟨c, hc, rfl⟩ := mem_arguments hn
  · exact Nat.zero_le _
  · exact slotOf_le hsplit (hchildren c hc)

theorem constKey?_eq_some_iff {key : String} :
    constKey? e = some key ↔ (∃ v, e.op = .const v) ∧ e.key = some key := by
  by_cases h : ∃ v, e.op = .const v
  · obtain ⟨v, hv⟩ := h
    rw [constKey?_of_const hv]
    exact ⟨fun hk => ⟨⟨v, hv⟩, hk⟩, And.right⟩
  · rw [constKey?_of_ne fun v hv => h ⟨v, hv⟩]
    exact ⟨nofun, fun hk => absurd hk.1 h⟩

/-- Further back stands what has the greater slot. -/
theorem pairwise_slotOf (hlist : Listed nodes) :
    nodes.Pairwise fun e f => slotOf nodes e < slotOf nodes f := by
  rw [List.pairwise_iff_getElem]
  intro i j hi hj hij
  rw [slotOf_getElem hlist i hi, slotOf_getElem hlist j hj]
  omega

/-- A program that has one cell for every node under its roots, each in a slot of its own. -/
structure Slotted (left right : Expr) (rate : Float32) (p : Program) (slot : Expr → Nat) :
    Prop where
  /-- The slots behind the zero are shared out among the distinct nodes. -/
  one_each : Set.BijOn slot (under [left, right]) (Set.Icc 1 (under [left, right]).ncard)
  length : p.cells.length = 1 + (under [left, right]).ncard
  values : p.values = .replicate (1 + (under [left, right]).ncard) 0.0
  zero : p.cells[0]? = some zeroCell
  /-- In its slot a node has its kernel, which is handed the slots of its children in order. -/
  cell : ∀ e ∈ under [left, right], ∃ k, Kernel.setup e.op e.key rate = .ok k ∧
    p.cells[slot e]? = some ⟨k, arguments slot e⟩
  below : ∀ e ∈ under [left, right], ∀ n ∈ arguments slot e, n < slot e
  /-- The zero is handed for a missing child and for no other. -/
  missing : ∀ e ∈ under [left, right], ∀ i < e.op.arity,
    (arguments slot e)[i]? = some 0 ↔ e.children.length ≤ i
  outputs : p.left = slot left ∧ p.right = slot right
  /-- A key stands for the constants that have it, each once. -/
  constants : ∀ key n, n ∈ p.slotsOf key ↔
    ∃ e ∈ under [left, right], (∃ v, e.op = .const v) ∧ e.key = some key ∧ slot e = n
  ordered : ∀ key, (p.slotsOf key).Pairwise (· < ·)

theorem slotted_of_build {left right : Expr} {p : Program}
    (shared : Coherent (under [left, right])) (h : build left right rate = .ok p) :
    Slotted left right rate p (slotOf (nodesOf [left, right])) := by
  have hlist := listed_nodesOf _ shared
  have hmem := mem_nodesOf _ shared
  have hlen := length_nodesOf shared
  have hone := slotOf_bijOn shared
  obtain ⟨cells, hcells, rfl⟩ := (build_eq_ok_iff p).1 h
  have hlaid := build_laid h fun e k hk => hk
  have hsize : cells.length = (under [left, right]).ncard := hcells.length_eq.symm.trans hlen
  exact {
    one_each := hlen ▸ hone
    length := by rw [List.length_cons, hsize, Nat.add_comm]
    values := by rw [← hsize, Nat.add_comm]
    zero := rfl
    cell := fun e he => by
      obtain ⟨k, hk, hsetup⟩ := hlaid.cell_slot shared he
      exact ⟨k, hsetup, argSlots_eq _ e ▸ hk⟩
    below := fun e he => arguments_lt hlist ((hmem e).2 he)
    missing := fun e he i hi => by
      rw [getElem?_arguments _ hi, Option.some_inj]
      by_cases hc : i < e.children.length
      · have hpos := (Set.mem_Icc.1 (hone.mapsTo (child_mem_under he (List.getElem_mem hc)))).1
        rw [List.getElem?_eq_getElem hc, Option.elim_some]
        omega
      · rw [List.getElem?_eq_none (by omega)]
        simpa using hc
    outputs := ⟨rfl, rfl⟩
    constants := fun key n => by
      rw [mem_slotsOf_iff rfl]
      simp only [hmem, constKey?_eq_some_iff, and_assoc]
    ordered := fun key => by
      rw [slotsOf_eq rfl]
      exact ((pairwise_slotOf hlist).filter _).map _ fun _ _ h => h }

/-- Whenever a program can be built from two roots, a lowering that walks them one after the other
comes to it. Behind the zero it has exactly one cell for each distinct node under the roots. What a
cell is handed are the slots of the children in order, which are all less than its own, and the zero
for a missing child alone. The program yields the slots of the roots, and a key stands for exactly
the slots of the constants that have it. -/
theorem build_slotted {left right : Expr} {p : Program}
    (shared : Coherent (under [left, right])) (h : build left right rate = .ok p) :
    ∃ s, lower left right rate = .ok s ∧ s.program = p ∧ Slotted left right rate p s.slot := by
  refine ⟨⟨p, slotTable (nodesOf [left, right])⟩, ?_, rfl, ?_⟩
  · rw [lower_eq shared, h]
    rfl
  · have hslot : Lowering.slot ⟨p, slotTable (nodesOf [left, right])⟩ =
        slotOf (nodesOf [left, right]) := funext fun e => slotTable_getD _ e
    rw [hslot]
    exact slotted_of_build shared h

def pitch : Expr := .node ⟨.free, 0⟩ (.const 440.0) (some "pitch") []

def tone : Expr := .node ⟨.free, 1⟩ (.oscillator .sine) none [pitch]

/-- A tone that is heard twice, though it is there once. -/
def unison : Expr := .node ⟨.free, 2⟩ (.binary .add) none [tone, tone]

theorem build_slotted_tone : ∃ p s, build unison tone 48000.0 = .ok p ∧
    lower unison tone 48000.0 = .ok s ∧ s.program = p ∧ Slotted unison tone 48000.0 p s.slot ∧
    p.cells.length = 4 ∧ p.left = 3 ∧ p.right = 2 ∧ p.slotsOf "pitch" = [1] := by
  have shared : Coherent (under [unison, tone]) := by
    refine coherent_of_subset [pitch, tone, unison] (by decide) ?_
    simp [partsAll, parts, unison, tone, pitch]
  obtain ⟨s, hs, hp, h⟩ := @build_slotted 48000.0 _ _ _ shared rfl
  exact ⟨_, s, rfl, hs, hp, h, rfl, rfl, rfl, rfl⟩

end Program

end Patchbay
