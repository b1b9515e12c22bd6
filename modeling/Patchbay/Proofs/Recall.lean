import Mathlib
import Patchbay.Proofs.Extremes
import Patchbay.Proofs.Safety

/-!
# A delay line remembers its last writes

The circular buffer holds as many of the past writes as it has cells, silence before the first of
them. What is read from it is told here from the list of past writes alone, the newest first.
-/

set_option autoImplicit false

namespace Patchbay

namespace Single

open Float.Model Rounding

variable {n : Nat} {x : Float32}

/-- Below a whole number the whole part is less. -/
theorem toNat_lt (hpos : 0 < n) (hn : n < 2 ^ 64) (hs : Short n) (h : x < ofNat n) :
    toNat x < n := by
  rcases hs with rfl | ⟨k, e, hs⟩
  · exact absurd hpos (lt_irrefl 0)
  obtain ⟨-, -, h⟩ := (lt_iff_place _ _).1 h
  have hcanonical := canonical x
  rw [place, place, unpack_ofNat hn hs] at h
  rw [toNat_eq]
  refine (min_le_left _ _).trans_lt ?_
  generalize x.toModel.unpack = u at h hcanonical
  rcases u with (_ | _) | _ | _ | ⟨_ | _, m, e', hm⟩
  case infinity.positive => simp [rank, Prod.Lex.toLex_lt_toLex] at h
  case finite.positive =>
    refine hs.whole_lt hcanonical.1 ?_
    simpa [rank, Prod.Lex.toLex_lt_toLex] using h
  all_goals exact hpos

/-- From a whole number on the whole part is no less. -/
theorem le_toNat (hn : n < 2 ^ 64) (hs : Short n) (h : ofNat n ≤ x) : n ≤ toNat x := by
  rcases hs with rfl | ⟨k, e, hs⟩
  · exact Nat.zero_le _
  obtain ⟨-, -, h⟩ := (le_iff_place _ _).1 h
  have hcanonical := canonical x
  rw [place, place, unpack_ofNat hn hs] at h
  rw [toNat_eq]
  refine le_min ?_ (by omega)
  generalize x.toModel.unpack = u at h hcanonical
  rcases u with (_ | _) | _ | _ | ⟨_ | _, m, e', hm⟩
  case infinity.positive =>
    rw [wholePart]
    omega
  case finite.positive =>
    have horder : e < e' ∨ e = e' ∧ k ≤ m := by
      simpa [rank, Prod.Lex.toLex_le_toLex] using h
    have hlow : 2 ^ 23 ≤ m := by
      have := hs.low
      have := hs.least
      have := hcanonical.2.2
      omega
    rw [wholePart, ← hs.whole]
    exact whole_mono hs.high hlow horder
  all_goals simp [rank, Prod.Lex.toLex_le_toLex] at h

theorem not_lt_self (x : Float32) : ¬x < x := fun h => lt_irrefl _ ((lt_iff_place x x).1 h).2.2

theorem le_of_not_lt {x y : Float32} (hx : x.isNaN = false) (hy : y.isNaN = false)
    (h : ¬x < y) : y ≤ x :=
  (le_iff_place _ _).2 ⟨hy, hx, not_lt.1 fun hlt => h ((lt_iff_place _ _).2 ⟨hx, hy, hlt⟩)⟩

theorem ofNat_zero : ofNat 0 = 0.0 := rfl

/-- A number from 0 on lies between its whole part and the next whole number. -/
theorem between_whole (h : 0.0 ≤ x) (hlt : toNat x < 2 ^ 24) :
    ofNat (toNat x) ≤ x ∧ x < ofNat (toNat x + 1) := by
  have hnumber : x.isNaN = false := ((le_iff_place _ _).1 h).2.1
  constructor
  · by_contra hle
    have hbelow : x < ofNat (toNat x) := by
      by_contra hnot
      exact hle (le_of_not_lt hnumber (isNaN_ofNat hlt.le) hnot)
    rcases Nat.eq_zero_or_pos (toNat x) with hzero | hpos
    · rw [hzero, ofNat_zero] at hle
      exact hle h
    · exact lt_irrefl _ (toNat_lt hpos (by omega) (short_of_lt hlt) hbelow)
  · by_contra hnot
    have := le_toNat (by omega) (short_of_le hlt)
      (le_of_not_lt hnumber (isNaN_ofNat hlt) hnot)
    omega

theorem not_ofNat_lt_zero (hn : n < 2 ^ 64) (hs : Short n) : ¬ofNat n < 0.0 := by
  rcases hs with rfl | ⟨k, e, hs⟩
  · exact not_lt_self _
  · intro h
    have hrank := ((lt_iff_place _ _).1 h).2.2
    rw [place, unpack_ofNat hn hs, show place 0.0 = toLex (0, toLex (0, 0)) from rfl] at hrank
    simp [rank, Prod.Lex.toLex_lt_toLex] at hrank

theorem max_ofNat_zero (hn : n < 2 ^ 24) : max (ofNat n) 0.0 = ofNat n := by
  rw [max, isNaN_ofNat hn.le, if_neg (by decide)]
  exact if_neg (not_ofNat_lt_zero (by omega) (short_of_lt hn))

/-- No other number stands in the place of a positive whole number. -/
theorem eq_ofNat (hpos : 0 < n) (hn : n < 2 ^ 24) (h : place x = place (ofNat n)) :
    x = ofNat n := by
  rcases Rounding.short_of_lt hn with rfl | ⟨k, e, hs⟩
  · exact absurd hpos (lt_irrefl 0)
  apply eq_of_unpack
  rw [place, place, unpack_ofNat (by omega) hs] at h
  rw [unpack_ofNat (by omega) hs]
  generalize x.toModel.unpack = u at h
  rcases u with s | - | s | ⟨s, m, i, hm⟩ <;> try cases s
  case finite.positive =>
    simp only [rank, toLex_inj, Prod.mk.injEq, true_and, Nat.cast_inj] at h
    simp only [h.1, h.2]
  all_goals simp [rank] at h

end Single

namespace DelayLine

variable {d : DelayLine} {written : List Float32} {n next k : Nat}

/-- The cell `k` behind the newest one, of `n` cells in a circle. -/
def behind (n next k : Nat) : Nat := (next + n - k - 1) % n

theorem mod_wrap {i : Nat} (h : i < 2 * n) : i % n = if i < n then i else i - n := by
  split
  · exact Nat.mod_eq_of_lt ‹_›
  · rw [Nat.mod_eq_sub_mod (by omega), Nat.mod_eq_of_lt (by omega)]

theorem behind_eq (hnext : next < n) (hk : k < n) :
    behind n next k = if k < next then next - k - 1 else next + n - k - 1 := by
  rw [behind, mod_wrap (by omega)]
  split <;> split <;> omega

/-- The newest cell is the one that was next. -/
theorem behind_step_zero (hnext : next < n) : behind n ((next + 1) % n) 0 = next := by
  rw [behind_eq (Nat.mod_lt _ (by omega)) (by omega), mod_wrap (by omega)]
  split <;> split <;> omega

/-- Every other cell falls behind by one. -/
theorem behind_step_succ (hnext : next < n) (hk : k + 1 < n) :
    behind n ((next + 1) % n) (k + 1) = behind n next k := by
  rw [behind_eq (Nat.mod_lt _ (by omega)) hk, behind_eq hnext (by omega), mod_wrap (by omega)]
  split <;> split <;> split <;> omega

theorem behind_ne_next (hnext : next < n) (hk : k + 1 < n) : behind n next k ≠ next := by
  rw [behind_eq hnext (by omega)]
  split <;> omega

/-- Beside the farthest cell the circle closes with the newest one. -/
theorem beside_behind (hnext : next < n) (hk : k < n) :
    (behind n next k + n - 1) % n = behind n next ((k + 1) % n) := by
  have hlt : behind n next k < n := Nat.mod_lt _ (by omega)
  rw [behind_eq hnext (Nat.mod_lt _ (by omega)), mod_wrap (by omega), mod_wrap (i := k + 1) (by omega),
    behind_eq hnext hk]
  split <;> split <;> split <;> split <;> omega

/-- The cells behind the next one to be written hold the past writes, silence before the first. -/
def Recalls (d : DelayLine) (written : List Float32) : Prop :=
  ∀ k < d.capacity, d.cells.getD (behind d.capacity d.next k) 0.0 = written.getD k 0.0

theorem recalls_new (h : new n = .ok d) : d.Recalls [] := by
  intro k _
  obtain ⟨-, -, rfl⟩ := new_eq_ok_iff.1 h
  rw [Array.getD_eq_getD_getElem?, Array.getElem?_replicate]
  split <;> rfl

theorem Recalls.write (h : d.Recalls written) (x : Float32) :
    (d.write x).Recalls (x :: written) := by
  intro k hk
  rw [capacity_write] at hk ⊢
  have hnext : d.next < d.capacity := d.next_lt
  have hcells : (d.write x).cells = d.cells.set d.next x d.next_lt := rfl
  have hmoved : (d.write x).next = (d.next + 1) % d.capacity := rfl
  rw [hcells, hmoved, Array.getD_eq_getD_getElem?, Array.getElem?_set]
  cases k with
  | zero =>
    rw [behind_step_zero hnext, if_pos rfl]
    rfl
  | succ k =>
    rw [behind_step_succ hnext hk, if_neg (behind_ne_next hnext hk).symm,
      ← Array.getD_eq_getD_getElem?, h k (by omega)]
    rfl

/-- What is read some distance behind the newest of some writes. -/
def recalled (capacity : Nat) (written : List Float32) (delay : Float32) : Float32 :=
  let c := clampDelay capacity delay
  let k := Single.toNat c
  let a := written.getD k 0.0
  let b := written.getD ((k + 1) % capacity) 0.0
  a + (b - a) * (c - Single.ofNat k)

theorem sized_of_le (h : d.capacity ≤ 2 ^ 24) : d.Sized :=
  have hpos := d.capacity_pos
  ⟨hasRoom_of_le h, Rounding.short_of_lt (by omega)⟩

theorem sized_of_capacity {now : DelayLine} (h : d.Sized) (hn : now.capacity = d.capacity) :
    now.Sized :=
  ⟨hn ▸ h.room, hn ▸ h.short⟩

/-- A distance that is cut off to a line of any size lies within the line. -/
theorem whole_clampDelay_lt (hn : 0 < n) (hroom : n ≤ 2 ^ 64) (hs : Rounding.Short (n - 1))
    (delay : Float32) : Single.toNat (clampDelay n delay) < n := by
  have := Single.toNat_min_le (n := n - 1) (by omega) hs (Single.max delay 0.0)
  rw [clampDelay]
  omega

theorem toNat_clampDelay_lt (hn : 0 < n) (hsize : n ≤ 2 ^ 24) (delay : Float32) :
    Single.toNat (clampDelay n delay) < n :=
  whole_clampDelay_lt hn (by omega) (Rounding.short_of_lt (by omega)) delay

theorem read_eq (h : d.Recalls written) (hsized : d.Sized) (delay : Float32) :
    d.read delay = recalled d.capacity written delay := by
  have hpos := d.capacity_pos
  have hroom : 4 * d.capacity < 2 ^ 63 := hsized.room
  have hnext : d.next < d.capacity := d.next_lt
  have hk := whole_clampDelay_lt hpos (by omega) hsized.short delay
  rw [read, recalled]
  generalize Single.toNat (clampDelay d.capacity delay) = k at hk
  have hindex : d.index k = behind d.capacity d.next k := index_eq hsized (by omega)
  simp only [hindex, beside_behind hnext hk, h k hk, h ((k + 1) % d.capacity) (Nat.mod_lt _ hpos)]

/-- A whole distance within a line of any size counts as it is. -/
theorem clampDelay_whole (hk : k < n) (hshort : k < 2 ^ 24) (hroom : n ≤ 2 ^ 64)
    (hs : Rounding.Short (n - 1)) : clampDelay n (Single.ofNat k) = Single.ofNat k := by
  have hlast : ¬Single.ofNat (n - 1) < Single.ofNat k := by
    intro hlt
    rcases Nat.eq_zero_or_pos k with rfl | hpos
    · exact Single.not_ofNat_lt_zero (by omega) hs hlt
    · have := Single.toNat_lt hpos (by omega) (Rounding.short_of_lt hshort) hlt
      rw [Single.toNat_ofNat (by omega) hs] at this
      omega
  rw [clampDelay, Single.max_ofNat_zero hshort, Single.min, Single.isNaN_ofNat hshort.le,
    if_neg (by decide), if_neg hlast]

theorem clampDelay_ofNat (hk : k < n) (hn : n ≤ 2 ^ 24) :
    clampDelay n (Single.ofNat k) = Single.ofNat k :=
  clampDelay_whole hk (by omega) (by omega) (Rounding.short_of_lt (by omega))

/-- A distance beyond the line counts as the farthest one. -/
theorem clampDelay_beyond (hn : 2 ≤ n) (hsize : n ≤ 2 ^ 24) {delay : Float32}
    (h : Single.ofNat (n - 1) ≤ delay) : clampDelay n delay = Single.ofNat (n - 1) := by
  obtain ⟨-, hnumber, hle⟩ := (Single.le_iff_place _ _).1 h
  have hzero := ((Single.lt_iff_place _ _).1 (@Single.lt_ofNat 0 (n - 1) (by omega) (by omega))).2.2
  have hmax : Single.max delay 0.0 = delay := by
    rw [Single.max, hnumber, if_neg (by decide)]
    exact if_neg fun hlt => lt_asymm ((Single.lt_iff_place _ _).1 hlt).2.2 (hzero.trans_le hle)
  rw [clampDelay, hmax, Single.min, hnumber, if_neg (by decide)]
  split
  · rfl
  · next hlast =>
    have hge : Single.place delay ≤ Single.place (Single.ofNat (n - 1)) := not_lt.1 fun hlt =>
      hlast ((Single.lt_iff_place _ _).2 ⟨Single.isNaN_ofNat (by omega), hnumber, hlt⟩)
    exact Single.eq_ofNat (by omega) (by omega) (le_antisymm hge hle)

theorem recalls_clear (d : DelayLine) : d.clear.Recalls [] := by
  intro k _
  rw [show d.clear.cells = Array.replicate d.capacity 0.0 from rfl, Array.getD_eq_getD_getElem?,
    Array.getElem?_replicate]
  split <;> rfl

/-- A call that changes a delay line. -/
inductive Change where
  | write (x : Float32)
  | clear

def obey (d : DelayLine) : Change → DelayLine
  | .write x => d.write x
  | .clear => d.clear

def after (d : DelayLine) (calls : List Change) : DelayLine := calls.foldl obey d

/-- What calls have written since the last of them that clears, the newest first. -/
def writtenBy (calls : List Change) : List Float32 :=
  calls.foldl (fun past call => match call with
    | .write x => x :: past
    | .clear => []) []

theorem capacity_after (d : DelayLine) (calls : List Change) :
    (d.after calls).capacity = d.capacity := by
  induction calls using List.reverseRecOn with
  | nil => rfl
  | append_singleton calls call ih =>
    rw [after, List.foldl_concat]
    cases call with
    | write x => exact (capacity_write _ x).trans ih
    | clear => exact (capacity_clear _).trans ih

theorem Recalls.after (h : d.Recalls []) (calls : List Change) :
    (d.after calls).Recalls (writtenBy calls) := by
  induction calls using List.reverseRecOn with
  | nil => exact h
  | append_singleton calls call ih =>
    rw [DelayLine.after, writtenBy, List.foldl_concat, List.foldl_concat]
    cases call with
    | write x => exact ih.write x
    | clear => exact recalls_clear _

/-- A distance within a line of `n` samples: nothing for what is less and for NaN, the farthest one
for what is more. -/
def limited (n : Nat) (delay : Float32) : Float32 :=
  if delay.isNaN = true ∨ delay < 0.0 then 0.0
  else if Single.ofNat (n - 1) < delay then Single.ofNat (n - 1)
  else delay

theorem clampDelay_eq (hn : n ≤ 2 ^ 24) (delay : Float32) :
    clampDelay n delay = limited n delay := by
  have hlast : ¬Single.ofNat (n - 1) < 0.0 :=
    Single.not_ofNat_lt_zero (by omega) (Rounding.short_of_le (by omega))
  have hnan : (0.0 : Float32).isNaN = false := rfl
  rw [clampDelay, limited, Single.max]
  by_cases hnumber : delay.isNaN = true
  · rw [if_pos hnumber, if_pos (.inl hnumber), Single.min, hnan, if_neg (by decide), if_neg hlast]
  by_cases hbelow : delay < 0.0
  · rw [if_neg hnumber, if_pos hbelow, if_pos (.inr hbelow), Single.min, hnan,
      if_neg (by decide), if_neg hlast]
  · rw [if_neg hnumber, if_neg hbelow, if_neg (not_or.2 ⟨hnumber, hbelow⟩), Single.min,
      if_neg hnumber]

theorem zero_le_limited (hn : n ≤ 2 ^ 24) (delay : Float32) : 0.0 ≤ limited n delay := by
  have hnan : (0.0 : Float32).isNaN = false := rfl
  have hlast : 0.0 ≤ Single.ofNat (n - 1) :=
    Single.le_of_not_lt (Single.isNaN_ofNat (by omega)) hnan
      (Single.not_ofNat_lt_zero (by omega) (Rounding.short_of_le (by omega)))
  rw [limited]
  split
  · exact (Single.le_iff_place _ _).2 ⟨hnan, hnan, le_rfl⟩
  · next hnumber =>
    rw [not_or, Bool.not_eq_true] at hnumber
    split
    · exact hlast
    · exact Single.le_of_not_lt hnumber.1 hnan hnumber.2

/-- A line of up to `2 ^ 24` samples is the list of what has been written, read between two
neighbours. -/
theorem read_history (hpos : 1 ≤ n) (hsize : n ≤ 2 ^ 24) :
    ∃ d, new n = .ok d ∧ ∀ (calls : List Change) (delay : Float32), ∃ k < n,
      let c := limited n delay
      let a := (writtenBy calls).getD k 0.0
      let b := (writtenBy calls).getD (if k + 1 = n then 0 else k + 1) 0.0
      Single.ofNat k ≤ c ∧ c < Single.ofNat (k + 1) ∧
        (d.after calls).read delay = a + (b - a) * (c - Single.ofNat k) := by
  obtain ⟨d, hd⟩ : ∃ d, new n = .ok d := ⟨_, new_eq hpos (hasRoom_of_le hsize)⟩
  have hcapacity := capacity_new hd
  refine ⟨d, hd, fun calls delay => ?_⟩
  have hlt := toNat_clampDelay_lt hpos hsize delay
  have hread := read_eq ((recalls_new hd).after calls)
    (sized_of_le ((capacity_after d calls).trans hcapacity ▸ hsize)) delay
  rw [capacity_after, hcapacity, recalled] at hread
  rw [clampDelay_eq hsize] at hlt hread
  obtain ⟨hle, hnext⟩ := Single.between_whole (zero_le_limited hsize delay) (by omega)
  have hbeside : (Single.toNat (limited n delay) + 1) % n =
      if Single.toNat (limited n delay) + 1 = n then 0 else Single.toNat (limited n delay) + 1 := by
    split
    · next hlast => rw [hlast, Nat.mod_self]
    · exact Nat.mod_eq_of_lt (by omega)
  rw [hbeside] at hread
  exact ⟨_, hlt, hle, hnext, hread⟩

/-- A line of two samples that has been cleared and then written once. Half a sample back it is
half way to the silence before. -/
theorem read_history_two : ∃ d, new 2 = .ok d ∧
    (d.after [.write 3.0, .clear, .write 1.0]).read 0.5 = 0.5 := by
  obtain ⟨d, hd, hread⟩ := @read_history 2 (by decide) (by decide)
  obtain ⟨k, hk, hle, -, heq⟩ := hread [.write 3.0, .clear, .write 1.0] 0.5
  obtain rfl | rfl : k = 0 ∨ k = 1 := by omega
  · exact ⟨d, hd, heq.trans (by decide)⟩
  · exact absurd hle (by decide)

end DelayLine

end Patchbay
