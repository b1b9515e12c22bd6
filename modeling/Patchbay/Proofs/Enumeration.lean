import Mathlib
import Patchbay.Command.Inspect
import Patchbay.Proofs.Refusal

/-!
# What an inspection lists

An inspection visits the channels one after the other and takes down what it has not seen before. A
program gives its slots in one pass over both roots, which turns back at every node it has met. Both
list each node where a visit of the roots meets it first, so the keys and taps that are reported are
those of the renderer once it has loaded the same roots.
-/

set_option autoImplicit false

namespace Patchbay

open Patchbay.Expr

/-! ## Keys in order -/

namespace Keys

theorem loop_eq (a : String) (keys done : List String) :
    List.eraseRepsBy.loop (· == ·) a keys done =
      done.reverse ++ List.eraseRepsBy.loop (· == ·) a keys [] := by
  induction keys generalizing a done with
  | nil => simp [List.eraseRepsBy.loop]
  | cons b keys ih =>
    simp only [List.eraseRepsBy.loop]
    split
    · exact ih a done
    · rw [ih b (a :: done), ih b [a]]
      simp

theorem eraseReps_cons_cons (a b : String) (keys : List String) :
    (a :: b :: keys).eraseReps =
      if a = b then (b :: keys).eraseReps else a :: (b :: keys).eraseReps := by
  simp only [List.eraseReps, List.eraseRepsBy, List.eraseRepsBy.loop]
  by_cases h : a = b
  · subst h
    simp
  · rw [if_neg h, beq_eq_false_iff_ne.2 h, loop_eq b keys [a]]
    rfl

theorem mem_eraseReps (key : String) (keys : List String) :
    key ∈ keys.eraseReps ↔ key ∈ keys := by
  induction keys with
  | nil => exact Iff.rfl
  | cons a keys ih =>
    cases keys with
    | nil => exact Iff.rfl
    | cons b keys =>
      rw [eraseReps_cons_cons]
      split
      · next h => rw [ih, h]; simp
      · simp [ih]

/-- In a sorted list equal keys stand side by side. -/
theorem pairwise_eraseReps {keys : List String} (h : keys.Pairwise (· ≤ ·)) :
    keys.eraseReps.Pairwise (· < ·) := by
  induction keys with
  | nil => exact .nil
  | cons a keys ih =>
    cases keys with
    | nil => exact List.pairwise_singleton _ a
    | cons b keys =>
      obtain ⟨ha, hrest⟩ := List.pairwise_cons.1 h
      rw [eraseReps_cons_cons]
      split
      · exact ih hrest
      · next hne =>
        refine List.pairwise_cons.2 ⟨fun key hkey => ?_, ih hrest⟩
        have hlt : a < b := lt_of_le_of_ne (ha b (by simp)) hne
        rcases List.mem_cons.1 ((mem_eraseReps key _).1 hkey) with rfl | hkey
        · exact hlt
        · exact hlt.trans_le ((List.pairwise_cons.1 hrest).1 key hkey)

theorem pairwise_sort (keys : List String) :
    (keys.mergeSort fun a b => !(b < a)).Pairwise (· ≤ ·) := by
  have htrans (a b c : String) (hab : (!decide (b < a)) = true) (hbc : (!decide (c < b)) = true) :
      (!decide (c < a)) = true := by
    simp only [Bool.not_eq_true', decide_eq_false_iff_not, not_lt] at *
    exact hab.trans hbc
  have htotal (a b : String) : (!decide (b < a) || !decide (a < b)) = true := by
    simp only [Bool.or_eq_true, Bool.not_eq_true', decide_eq_false_iff_not, not_lt]
    exact le_total a b
  refine (List.pairwise_mergeSort htrans htotal keys).imp fun h => ?_
  rw [Bool.not_eq_true'] at h
  exact not_lt.1 (of_decide_eq_false h)

end Keys

/-! ## First occurrences -/

namespace Inspection

variable {seen es : List Expr}

theorem foldl_note_of_seen (h : ∀ e ∈ es, ∃ f ∈ seen, f.label = e.label) :
    es.foldl note seen = seen := by
  induction es with
  | nil => rfl
  | cons e es ih =>
    have he : seen.any (·.label = e.label) = true := by simpa using h e (by simp)
    rw [List.foldl_cons, note, if_pos he]
    exact ih fun f hf => h f (by simp [hf])

theorem prefix_foldl_note (es seen : List Expr) : seen <+: es.foldl note seen := by
  induction es generalizing seen with
  | nil => exact List.prefix_rfl
  | cons e es ih =>
    refine List.IsPrefix.trans ?_ (ih (note seen e))
    rw [note]
    split
    · exact List.prefix_rfl
    · exact List.prefix_append _ _

theorem exists_label_foldl_note {e : Expr} (he : e ∈ es) :
    ∃ f ∈ es.foldl note seen, f.label = e.label := by
  induction es generalizing seen with
  | nil => cases he
  | cons g es ih =>
    rcases List.mem_cons.1 he with rfl | he
    · have hnoted : ∃ f ∈ note seen e, f.label = e.label := by
        rw [note]
        split
        · next h => simpa using h
        · exact ⟨e, by simp, rfl⟩
      obtain ⟨f, hf, hlabel⟩ := hnoted
      exact ⟨f, (prefix_foldl_note es _).subset hf, hlabel⟩
    · exact ih he

/-- What was taken down on one visit is taken down again as the visit itself would be. -/
theorem foldl_note_foldl_note (es ds seen : List Expr) :
    (es.foldl note ds).foldl note seen = es.foldl note (ds.foldl note seen) := by
  induction es generalizing ds with
  | nil => rfl
  | cons e es ih =>
    rw [List.foldl_cons, List.foldl_cons, ih]
    congr 1
    by_cases hd : ds.any (·.label = e.label) = true
    · rw [note, if_pos hd]
      obtain ⟨d, hmem, hlabel⟩ := List.any_eq_true.1 hd
      obtain ⟨f, hf, hfd⟩ := exists_label_foldl_note hmem
      have hseen : (ds.foldl note seen).any (·.label = e.label) = true :=
        List.any_eq_true.2 ⟨f, hf, by simpa [hfd] using hlabel⟩
      rw [note, if_pos hseen]
    · rw [note, if_neg hd, List.foldl_append]
      rfl

end Inspection

namespace Expr

open Inspection (note foldl_note_of_seen)

variable {s : Set Expr}

mutual

theorem reverse_collect (hs : Coherent s) (e : Expr) (met : List Expr) (hm : ∀ f ∈ met, f ∈ s)
    (he : ∀ f ∈ parts e, f ∈ s) (ho : Ordered met) :
    (collect met e).reverse = (visit e).foldl note met.reverse := by
  obtain ⟨l, op, key, cs⟩ := e
  rw [collect]
  split
  · next h =>
    -- a node that was met has everything under it met
    obtain ⟨g, hg, hl⟩ := List.any_eq_true.1 h
    obtain rfl : g = node l op key cs := hs (hm g hg) (he _ (mem_parts _)) (of_decide_eq_true hl)
    have hsub := parts_subset_of_ordered met ho _ hg
    exact (foldl_note_of_seen fun f hf =>
      ⟨f, List.mem_reverse.2 (hsub ((mem_visit _ f).1 hf)), rfl⟩).symm
  · next hunmet =>
    have hc : ∀ f ∈ partsAll cs, f ∈ s := fun f hf => he f (by rw [parts]; simp [hf])
    obtain ⟨hord, hmem⟩ := collectAll_spec s hs cs met hm hc ho
    have hnew : ¬(collectAll met cs).reverse.any (·.label = l) = true := by
      rw [List.any_reverse, List.any_eq_true]
      rintro ⟨f, hf, hl⟩
      rcases (hmem f).1 hf with hf | hf
      · exact hunmet (List.any_eq_true.2 ⟨f, hf, hl⟩)
      · obtain rfl : f = node l op key cs := hs (hc f hf) (he _ (mem_parts _)) (of_decide_eq_true hl)
        exact not_mem_partsAll_children _ hf
    rw [List.reverse_cons, visit, List.foldl_append, ← reverse_collectAll hs cs met hm hc ho]
    exact (if_neg hnew).symm

theorem reverse_collectAll (hs : Coherent s) (cs : List Expr) (met : List Expr)
    (hm : ∀ f ∈ met, f ∈ s) (he : ∀ f ∈ partsAll cs, f ∈ s) (ho : Ordered met) :
    (collectAll met cs).reverse = (visitAll cs).foldl note met.reverse := by
  match cs with
  | [] => rfl
  | c :: cs =>
    have hc : ∀ f ∈ parts c, f ∈ s := fun f hf => he f (by simp [partsAll, hf])
    obtain ⟨hord, hmem⟩ := collect_spec s hs c met hm hc ho
    have hm' : ∀ f ∈ collect met c, f ∈ s := fun f hf => ((hmem f).1 hf).elim (hm f) (hc f)
    rw [collectAll, visitAll, List.foldl_append, ← reverse_collect hs c met hm hc ho]
    exact reverse_collectAll hs cs _ hm' (fun f hf => he f (by simp [partsAll, hf])) hord

end

/-- One pass over all roots lists the nodes as a visit meets them first. -/
theorem nodesOf_eq {roots : List Expr} (shared : Coherent (under roots)) :
    nodesOf roots = (visitAll roots).foldl note [] :=
  reverse_collectAll shared roots [] (by simp) (fun _ h => h) trivial

end Expr

theorem under_singleton_subset {roots : List Expr} {e : Expr} (he : e ∈ roots) :
    under [e] ⊆ under roots := by
  intro f hf
  obtain ⟨g, hg, hfg⟩ := (mem_partsAll f [e]).1 hf
  exact (mem_partsAll f roots).2 ⟨e, he, by rwa [List.mem_singleton.1 hg] at hfg⟩

theorem Expr.nodes_eq_visit {e : Expr} (hs : Coherent (under [e])) :
    e.nodes = (visit e).foldl Inspection.note [] := by
  rw [Expr.nodes, nodesOf_eq hs, visitAll, visitAll, List.append_nil]

namespace Inspection

theorem foldl_note_nodes {e : Expr} (hs : Coherent (under [e])) (seen : List Expr) :
    e.nodes.foldl note seen = (visit e).foldl note seen := by
  rw [nodes_eq_visit hs, foldl_note_foldl_note]
  rfl

theorem nodes_eq {t : RenderTarget} (shared : Coherent (under [t.left, t.right])) :
    nodes t = nodesOf [t.left, t.right] := by
  have hchannel {e : Expr} (he : e ∈ [t.left, t.right]) : Coherent (under [e]) :=
    shared.mono (under_singleton_subset he)
  rw [nodes, nodesOf_eq shared]
  simp only [List.flatMap_cons, List.flatMap_nil, List.append_nil, visitAll, List.foldl_append]
  rw [foldl_note_nodes (hchannel (by simp)), foldl_note_nodes (hchannel (by simp))]

theorem constKey?_eq (e : Expr) :
    Program.constKey? e = e.key.filter fun _ => e.const?.isSome := by
  obtain ⟨l, op, key, cs⟩ := e
  rw [Program.constKey?, Expr.const?]
  cases op <;> cases key <;> rfl

theorem keyedSlots_keys (nodes : List Expr) :
    (Program.keyedSlots nodes).map Prod.fst =
      nodes.filterMap fun e => e.key.filter fun _ => e.const?.isSome := by
  simp only [Program.keyedSlots, List.map_filterMap, ← constKey?_eq, Option.map_map]
  exact List.filterMap_congr fun e _ => by cases Program.constKey? e <;> rfl

theorem tapCount_eq (nodes : List Expr) :
    ((tapsOf nodes).map Tap.tag).length = nodes.countP fun e => e.op.tap?.isSome := by
  rw [List.length_map, tapsOf, List.length_filterMap_eq_countP]

end Inspection

/-- A key can be set once a constant of the program has it. -/
theorem Renderer.setConst?_isSome_iff {r : Renderer} {l : Loaded} (h : r.loaded = some l)
    (key : String) (value : Float32) :
    (r.setConst? key value).isSome ↔ key ∈ l.program.constants.map Prod.fst := by
  rw [← not_iff_not, ← setConst?_eq_none_iff l.program key value, Renderer.setConst?, h]
  cases hset : l.program.setConst? key value <;> simp [hset]

/-- What is loaded has the keys and the taps of the nodes under its roots. -/
theorem Renderer.load_lists {r r' : Renderer} {left right : Expr}
    (h : r.load left right = .ok r') : ∃ l, r'.loaded = some l ∧
      l.program.constants = Program.keyedSlots (nodesOf [left, right]) ∧
      l.program.taps = (tapsOf (nodesOf [left, right])).map Tap.tag := by
  obtain ⟨p, hbuild, rfl⟩ := load_eq h
  obtain ⟨cells, -, rfl⟩ := (build_eq_ok_iff p).1 hbuild
  exact ⟨_, rfl, rfl, rfl⟩

open Inspection (wideCount) in
/-- A renderer that has loaded a target knows the keys that an inspection of the target lists,
sorted and each once; these are the keys under which something can be set. And it has as many taps
as the inspection counts. So both are what is printed. -/
theorem inspection_agrees {r r' : Renderer} {t : RenderTarget}
    (shared : Coherent (under [t.left, t.right])) (h : r.load t.left t.right = .ok r') :
    Inspection.constKeys t = r'.constKeys ∧ (Inspection.constKeys t).Pairwise (· < ·) ∧
    (∀ key value, key ∈ Inspection.constKeys t ↔ (r'.setConst? key value).isSome) ∧
    Inspection.tapCount t = r'.taps.length ∧
    ∀ showExpr, ∃ head tail, Inspection.target t showExpr =
      head ++ wideCount "taps" (digitText r'.taps.length) ::
        wideCount "keyed consts" (digitText r'.constKeys.length) ::
        r'.constKeys.map (fun key => "    " ++ key) ++ tail := by
  obtain ⟨l, hl, hconstants, htaps⟩ := Renderer.load_lists h
  have hnodes := Inspection.nodes_eq shared
  have hlist : Inspection.constKeys t = r'.constKeys := by
    rw [Inspection.constKeys, hnodes, ← Inspection.keyedSlots_keys, Renderer.constKeys, hl]
    simp only [Program.constKeys, hconstants]
  have hcount : Inspection.tapCount t = r'.taps.length := by
    rw [Inspection.tapCount, hnodes, ← Inspection.tapCount_eq, Renderer.taps, hl]
    simp only [htaps]
  refine ⟨hlist, Keys.pairwise_eraseReps (Keys.pairwise_sort _), fun key value => ?_, hcount,
    fun showExpr => ?_⟩
  · rw [Renderer.setConst?_isSome_iff hl, hconstants, Inspection.keyedSlots_keys,
      Inspection.constKeys, hnodes, Keys.mem_eraseReps, List.mem_mergeSort]
  · rw [Inspection.target, hlist, hcount]
    exact ⟨["", "Expression:", _, _, _], _, rfl⟩

/-- Another constant under the key of the dial. -/
def dialTwin : Expr := .node ⟨.free, 1⟩ (.const 2.0) (some "dial") []

def dialMeter : Expr :=
  .node ⟨.free, 3⟩ (.tap (.meter "m")) none [.node ⟨.free, 2⟩ (.binary .add) none [dial, dialTwin]]

/-- A meter that both channels share, and noise under a key that cannot be set. -/
def panel : RenderTarget :=
  ⟨dialMeter, .node ⟨.free, 5⟩ (.binary .mul) none
    [.node ⟨.free, 4⟩ .noise (some "hiss") [], dialMeter]⟩

theorem coherent_panel : Coherent (under [panel.left, panel.right]) := by
  refine coherent_of_subset [dial, dialTwin, .node ⟨.free, 2⟩ (.binary .add) none [dial, dialTwin],
    dialMeter, .node ⟨.free, 4⟩ .noise (some "hiss") [], panel.right] (by decide) ?_
  simp [partsAll, parts, panel, dialMeter, dialTwin, dial]

theorem inspection_agrees_panel : ∃ r' : Renderer,
    Renderer.load ⟨48000.0, 512, 0, none, .empty, 0⟩ panel.left panel.right = .ok r' ∧
    Inspection.constKeys panel = r'.constKeys ∧ (r'.setConst? "dial" 0.5).isSome ∧
    "dial" ∈ Inspection.constKeys panel ∧ "hiss" ∉ Inspection.constKeys panel ∧
    Inspection.tapCount panel = 1 ∧ r'.taps.length = 1 := by
  refine ⟨_, rfl, ?_⟩
  obtain ⟨hlist, -, hset, htaps, -⟩ := inspection_agrees coherent_panel
    (r := ⟨48000.0, 512, 0, none, .empty, 0⟩) rfl
  exact ⟨hlist, rfl, (hset "dial" 0.5).2 rfl, (nomatch (hset "hiss" 0.5).1 ·), htaps.trans rfl, rfl⟩

end Patchbay
