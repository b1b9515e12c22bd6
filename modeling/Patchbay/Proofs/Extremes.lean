import Mathlib
import Patchbay.Proofs.Number
import Patchbay.Render.Kernel

/-!
# Least and greatest samples

Numbers in single precision stand in a row, the two zeros in one place and NaN in none. So the
extremes that a meter comes to are numbers it has seen, and no number it has seen lies beyond them.
-/

set_option autoImplicit false

namespace Patchbay

open Float.Model Float.Model.UnpackedFloat

namespace Single

/-- Where a number stands in the row: by its kind and sign, then by exponent and significand. -/
def rank : UnpackedFloat → ℤ ×ₗ ℤ ×ₗ ℤ
  | .infinity .negative => toLex (-2, toLex (0, 0))
  | .finite .negative m e _ => toLex (-1, toLex (-e, -m))
  | .zero _ => toLex (0, toLex (0, 0))
  | .finite .positive m e _ => toLex (1, toLex (e, m))
  | .infinity .positive => toLex (2, toLex (0, 0))
  | .notANumber => toLex (0, toLex (0, 0))

theorem lt_iff_rank (u w : UnpackedFloat) :
    UnpackedFloat.lt u w = true ↔ u.isNaN = false ∧ w.isNaN = false ∧ rank u < rank w := by
  rcases u with s | - | s | ⟨s, m, e, hm⟩ <;> rcases w with s' | - | s' | ⟨s', m', e', hm'⟩ <;>
    try cases s <;> try cases s'
  all_goals
    simp [UnpackedFloat.lt, UnpackedFloat.compare, UnpackedFloat.isNaN, rank,
      Prod.Lex.toLex_lt_toLex, Ordering.then_eq_lt, Ordering.then_eq_gt, compare_lt_iff_lt,
      compare_gt_iff_gt]
  rfl

theorem le_iff_rank (u w : UnpackedFloat) :
    UnpackedFloat.le u w = true ↔ u.isNaN = false ∧ w.isNaN = false ∧ rank u ≤ rank w := by
  rcases u with s | - | s | ⟨s, m, e, hm⟩ <;> rcases w with s' | - | s' | ⟨s', m', e', hm'⟩ <;>
    try cases s <;> try cases s'
  all_goals
    simp [UnpackedFloat.le, UnpackedFloat.compare, UnpackedFloat.isNaN, rank,
      Prod.Lex.toLex_le_toLex, Ordering.isLE_iff_ne_gt, Ordering.isGE_iff_ne_lt,
      Ordering.then_eq_lt, Ordering.then_eq_gt, compare_lt_iff_lt, compare_gt_iff_gt]
  case infinity.infinity.positive.negative => rfl
  case finite.finite.negative.negative => omega
  case finite.finite.positive.positive => omega

/-- The place of a number in single precision. -/
def place (x : Float32) : ℤ ×ₗ ℤ ×ₗ ℤ := rank x.toModel.unpack

theorem lt_iff_place (x y : Float32) :
    x < y ↔ x.isNaN = false ∧ y.isNaN = false ∧ place x < place y :=
  decide_eq_true_iff.trans (lt_iff_rank _ _)

theorem le_iff_place (x y : Float32) :
    x ≤ y ↔ x.isNaN = false ∧ y.isNaN = false ∧ place x ≤ place y :=
  decide_eq_true_iff.trans (le_iff_rank _ _)

theorem rank_le (u : UnpackedFloat) : rank u ≤ rank (.infinity .positive) ∧
    (rank u = rank (.infinity .positive) → u = .infinity .positive) := by
  rcases u with s | - | s | ⟨s, m, e, hm⟩ <;> try cases s
  all_goals simp [rank, Prod.Lex.toLex_le_toLex]

theorem le_rank (u : UnpackedFloat) : rank (.infinity .negative) ≤ rank u ∧
    (rank u = rank (.infinity .negative) → u = .infinity .negative) := by
  rcases u with s | - | s | ⟨s, m, e, hm⟩ <;> try cases s
  all_goals simp [rank, Prod.Lex.toLex_le_toLex]

theorem eq_of_unpack {x y : Float32} (h : x.toModel.unpack = y.toModel.unpack) : x = y := by
  rw [← Single.pack_unpack x, h, Single.pack_unpack]

theorem place_le_infinity (x : Float32) : place x ≤ place infinity := (rank_le _).1

theorem eq_infinity {x : Float32} (h : place x = place infinity) : x = infinity :=
  eq_of_unpack ((rank_le _).2 h)

theorem negInfinity_le_place (x : Float32) : place negInfinity ≤ place x := (le_rank _).1

theorem eq_negInfinity {x : Float32} (h : place x = place negInfinity) : x = negInfinity :=
  eq_of_unpack ((le_rank _).2 h)

section Select

variable {κ : Type} [LinearOrder κ] {key : Float32 → κ} {select : Float32 → Float32 → Float32}
variable {start : Float32}

/-- A choice between a number and a sample: the sample if it comes before the number. -/
def Selects (key : Float32 → κ) (select : Float32 → Float32 → Float32) : Prop :=
  ∀ m x, m.isNaN = false → select m x = if x.isNaN = false ∧ key x < key m then x else m

theorem foldl_select (h : Selects key select) (number : start.isNaN = false)
    (samples : List Float32) :
    (samples.foldl select start).isNaN = false ∧
      (samples.foldl select start = start ∨ samples.foldl select start ∈ samples) ∧
      ∀ y ∈ samples, y.isNaN = false → key (samples.foldl select start) ≤ key y := by
  induction samples using List.reverseRecOn with
  | nil => exact ⟨number, .inl rfl, by simp⟩
  | append_singleton samples x ih =>
    obtain ⟨hnumber, hmem, hleast⟩ := ih
    rw [List.foldl_append, List.foldl_cons, List.foldl_nil, h _ _ hnumber]
    split
    · next hx =>
      refine ⟨hx.1, .inr (by simp), fun y hy hy' => ?_⟩
      rcases List.mem_append.1 hy with hy | hy
      · exact hx.2.le.trans (hleast y hy hy')
      · rw [List.mem_singleton.1 hy]
    · next hx =>
      refine ⟨hnumber, hmem.imp id fun hm => by simp [hm], fun y hy hy' => ?_⟩
      rcases List.mem_append.1 hy with hy | hy
      · exact hleast y hy hy'
      · obtain rfl := List.mem_singleton.1 hy
        exact not_lt.1 fun hlt => hx ⟨hy', hlt⟩

/-- Among samples that are not all NaN the first in the row is chosen, if the choice begins with
what comes last. -/
theorem foldl_select_mem (h : Selects key select) (number : start.isNaN = false)
    (last : ∀ x, key x ≤ key start) (only : ∀ x, key x = key start → x = start)
    {samples : List Float32} (some : ∃ y ∈ samples, y.isNaN = false) :
    samples.foldl select start ∈ samples := by
  obtain ⟨y, hy, hy'⟩ := some
  obtain ⟨-, hstart | hmem, hleast⟩ := foldl_select h number samples
  · have hkey : key y = key start := le_antisymm (last y) (hstart ▸ hleast y hy hy')
    rw [hstart, ← only y hkey]
    exact hy
  · exact hmem

end Select

theorem selects_min : Selects place min := by
  intro m x hm
  rw [min, hm, if_neg Bool.false_ne_true]
  simp only [lt_iff_place, hm, true_and]

theorem selects_max : Selects (fun x => OrderDual.toDual (place x)) max := by
  intro m x hm
  rw [max, hm, if_neg Bool.false_ne_true]
  simp only [lt_iff_place, hm, true_and, OrderDual.toDual_lt_toDual]

end Single

namespace Extremes

/-- The extremes of some samples. -/
def ofSamples (samples : List Float32) : Extremes := samples.foldl push empty

theorem ofSamples_concat (samples : List Float32) (x : Float32) :
    ofSamples (samples ++ [x]) = (ofSamples samples).push x := List.foldl_concat ..

theorem ofSamples_eq (samples : List Float32) :
    ofSamples samples = ⟨samples.foldl Single.min Single.infinity,
      samples.foldl Single.max Single.negInfinity, samples.length⟩ := by
  induction samples using List.reverseRecOn with
  | nil => rfl
  | append_singleton samples x ih => rw [ofSamples_concat, ih]; simp [push]

/-- The least and the greatest number among some samples. -/
structure Bounds (x : Extremes) (samples : List Float32) : Prop where
  min_mem : x.min ∈ samples
  min_number : x.min.isNaN = false
  min_le : ∀ y ∈ samples, y.isNaN = false → x.min ≤ y
  max_mem : x.max ∈ samples
  max_number : x.max.isNaN = false
  le_max : ∀ y ∈ samples, y.isNaN = false → y ≤ x.max

theorem ofSamples_bounds {samples : List Float32} (some : ∃ y ∈ samples, y.isNaN = false) :
    (ofSamples samples).Bounds samples := by
  have hfirst : Single.infinity.isNaN = false := rfl
  have hfirst' : Single.negInfinity.isNaN = false := rfl
  rw [ofSamples_eq]
  obtain ⟨hmin, -, hleast⟩ := Single.foldl_select Single.selects_min hfirst samples
  obtain ⟨hmax, -, hgreatest⟩ := Single.foldl_select Single.selects_max hfirst' samples
  refine ⟨?_, hmin, fun y hy hy' => ?_, ?_, hmax, fun y hy hy' => ?_⟩
  · exact Single.foldl_select_mem Single.selects_min hfirst Single.place_le_infinity
      (fun _ => Single.eq_infinity) some
  · exact (Single.le_iff_place _ _).2 ⟨hmin, hy', hleast y hy hy'⟩
  · exact Single.foldl_select_mem Single.selects_max hfirst' Single.negInfinity_le_place
      (fun _ => Single.eq_negInfinity) some
  · exact (Single.le_iff_place _ _).2 ⟨hy', hmax, hgreatest y hy hy'⟩

end Extremes

end Patchbay
