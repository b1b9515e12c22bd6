import Mathlib
import Patchbay.Proofs.Recall
import Patchbay.Proofs.WholeRounding

/-!
# How far back a delay line is read

The farthest distance into a line is one less than its samples, rounded to a single. As long as it is
not rounded up, a read stays within the line; a line whose length follows from a time has such a
length. Where it is rounded up, a read reaches beyond the line, and the count of cells may run below
zero.
-/

set_option autoImplicit false

namespace Patchbay

open Rounding (nearest nearest_le short_nearest nearest_of_lt)

namespace Single

theorem max_infinity : max infinity 0.0 = infinity := by decide

/-- A whole number is less than infinity. -/
theorem ofNat_lt_infinity {n : Nat} (hn : n < 2 ^ 64) : ofNat n < infinity := by
  rcases Nat.eq_zero_or_pos n with rfl | hpos
  · decide
  obtain ⟨k, e, h, heq⟩ := unpack_ofNat_nearest hpos (by omega)
  have hnumber : (ofNat n).isNaN = false := by
    show (ofNat n).toModel.unpack.isNaN = false
    rw [heq]
    rfl
  refine (lt_iff_place _ _).2 ⟨hnumber, rfl, ?_⟩
  rw [place, heq]
  show _ < rank (.infinity .positive)
  simp [rank, Prod.Lex.toLex_lt_toLex]

end Single

namespace DelayLine

variable {d : DelayLine} {n : Nat} {delay : Float32}

theorem whole_clampDelay_le (hroom : n < 2 ^ 63) (delay : Float32) :
    Single.toNat (clampDelay n delay) ≤ nearest (n - 1) := by
  have hlast : n - 1 < 2 ^ 63 := by omega
  have hle := nearest_le hlast
  rw [clampDelay, ← Single.ofNat_nearest hlast]
  exact Single.toNat_min_le (by omega) (short_nearest (by omega)) _

/-- What is farther than any distance reaches as far as there is one. -/
theorem whole_clampDelay_infinity (hroom : n < 2 ^ 63) :
    Single.toNat (clampDelay n Single.infinity) = nearest (n - 1) := by
  have hlast : n - 1 < 2 ^ 63 := by omega
  have hnumber : Single.infinity.isNaN = false := rfl
  rw [clampDelay, Single.max_infinity, Single.min, hnumber, if_neg (by decide),
    if_pos (Single.ofNat_lt_infinity (by omega)), Single.toNat_ofNat_nearest hlast]

/-- A distance beyond the next cell and a whole round is counted below zero. -/
theorem readDelay_overflow (hroom : HasRoom d.capacity)
    (h : d.next + d.capacity ≤ Single.toNat (clampDelay d.capacity delay)) :
    Guard.readDelay d delay = .error .overflow := by
  rw [HasRoom] at hroom
  have hpos := d.capacity_pos
  have hnext : d.next < d.capacity := d.next_lt
  rw [clampDelay] at h
  rw [Guard.readDelay, @Guard.difference_eq d.capacity 1 hpos, ok_bind, Guard.sum_eq (by omega),
    ok_bind]
  generalize Single.toNat (Single.min (Single.max delay 0.0) (Single.ofNat (d.capacity - 1))) = k
    at h
  -- either the distance cannot be taken off, or the one that the newest cell stands at
  rcases h.eq_or_lt with rfl | hlt
  · rw [Guard.difference_eq le_rfl, ok_bind, Nat.sub_self]
    rfl
  · rw [Guard.difference, if_neg (by omega)]
    rfl

theorem readDelay_eq_ok_iff (hroom : HasRoom d.capacity) :
    Guard.readDelay d delay = .ok (d.read delay) ↔
      Single.toNat (clampDelay d.capacity delay) < d.next + d.capacity := by
  refine ⟨fun hok => ?_, read_of_lt hroom⟩
  by_contra hfar
  rw [readDelay_overflow hroom (not_lt.1 hfar)] at hok
  cases hok

theorem whole_clampDelay_lt_iff (hroom : n < 2 ^ 63) (m : Nat) :
    (∀ delay, Single.toNat (clampDelay n delay) < m) ↔ nearest (n - 1) < m := by
  constructor
  · intro h
    rw [← whole_clampDelay_infinity hroom]
    exact h Single.infinity
  · intro h delay
    exact (whole_clampDelay_le hroom delay).trans_lt h

/-- A number that a single holds is rounded to itself, so a line of some seconds has the length
that its farthest distance says. -/
theorem nearest_samplesFor {rate seconds : Float32} (hpos : 1 ≤ samplesFor rate seconds)
    (hroom : samplesFor rate seconds < 2 ^ 63) :
    nearest (samplesFor rate seconds - 1) = samplesFor rate seconds - 1 := by
  have hword : Single.toNat (rate * Single.max seconds 0.0) < 2 ^ 64 := UInt64.toNat_lt _
  rw [samplesFor, show UInt64.size = 2 ^ 64 from rfl] at hpos hroom ⊢
  have hcount : (Single.toNat (rate * Single.max seconds 0.0) + 1) % 2 ^ 64 =
      Single.toNat (rate * Single.max seconds 0.0) + 1 := by
    omega
  rw [hcount] at hroom ⊢
  rw [Nat.add_sub_cancel, ← Single.toNat_ofNat_nearest (by omega),
    Single.toNat_ofNat (by omega) (Single.short_toNat (by omega))]

/-- The first number that is rounded up is `2 ^ 24 + 3`. -/
theorem nearest_le_of_le (h : n ≤ 2 ^ 24 + 2) : nearest n ≤ n := by
  rcases lt_or_ge n (2 ^ 24) with hlow | hhigh
  · exact (nearest_of_lt hlow).le
  · obtain rfl | rfl | rfl : n = 2 ^ 24 ∨ n = 2 ^ 24 + 1 ∨ n = 2 ^ 24 + 2 := by omega
    all_goals decide

/-- Where the next write goes is told by the writes since the line was last silent. -/
theorem next_after (h : d.next = 0) (calls : List Change) :
    (d.after calls).next = (writtenBy calls).length % d.capacity := by
  induction calls using List.reverseRecOn with
  | nil => rw [after, writtenBy, List.foldl_nil, List.foldl_nil, h, List.length_nil, Nat.zero_mod]
  | append_singleton calls call ih =>
    rw [after, writtenBy, List.foldl_concat, List.foldl_concat]
    cases call with
    | write x =>
      show ((d.after calls).next + 1) % (d.after calls).capacity = _
      rw [ih, capacity_after, Nat.mod_add_mod]
      rfl
    | clear => exact (Nat.zero_mod _).symm

theorem next_new (h : new n = .ok d) : d.next = 0 := by
  obtain ⟨-, -, rfl⟩ := new_eq_ok_iff.1 h
  rfl

/-- For a line of any size that memory has room for, whatever has been written. A read stays within
the line, whatever the distance, exactly if one less than the size is not rounded up as a single;
the line may be one of some seconds, or one of up to `2 ^ 24 + 3` samples. The count of cells passes
all checks exactly if it does not run below zero, and it never does exactly if the rounded distance
stays below the next cell after a whole round. -/
theorem read_reach (hpos : 1 ≤ n) (hroom : HasRoom n) :
    ∃ d, new n = .ok d ∧
      ((∀ delay, Single.toNat (clampDelay n delay) ≤ n - 1) ↔ nearest (n - 1) ≤ n - 1) ∧
      (n ≤ 2 ^ 24 + 3 ∨ (∃ rate seconds, samplesFor rate seconds = n) →
        nearest (n - 1) ≤ n - 1) ∧
      ∀ calls, let line := d.after calls
        line.next = (writtenBy calls).length % n ∧
        (∀ delay, Guard.readDelay line delay = .ok (line.read delay) ↔
          Single.toNat (clampDelay n delay) + 1 ≤ line.next + n) ∧
        ((∀ delay, Single.toNat (clampDelay n delay) + 1 ≤ line.next + n) ↔
          nearest (n - 1) + 1 ≤ line.next + n) := by
  obtain ⟨d, hd⟩ : ∃ d, new n = .ok d := ⟨_, new_eq hpos hroom⟩
  have hcapacity := capacity_new hd
  have hword : n < 2 ^ 63 := by
    rw [HasRoom] at hroom
    omega
  refine ⟨d, hd, ?_, ?_, fun calls => ?_⟩
  · simpa only [Nat.lt_succ_iff] using whole_clampDelay_lt_iff hword (n - 1 + 1)
  · rintro (hshort | ⟨rate, seconds, rfl⟩)
    · exact nearest_le_of_le (by omega)
    · exact (nearest_samplesFor hpos hword).le
  · have hline : (d.after calls).capacity = n := (capacity_after d calls).trans hcapacity
    refine ⟨?_, fun delay => ?_, whole_clampDelay_lt_iff hword _⟩
    · rw [next_after (next_new hd), hcapacity]
    · rw [readDelay_eq_ok_iff (hline ▸ hroom), hline]
      rfl

/-- A line of more than `2 ^ 24` samples whose farthest distance is rounded down. -/
theorem read_reach_long : ∃ d, new 16777222 = .ok d ∧
    (∀ delay, Single.toNat (clampDelay 16777222 delay) ≤ 16777221) ∧
    ∀ calls delay, Guard.readDelay (d.after calls) delay = .ok ((d.after calls).read delay) := by
  obtain ⟨d, hd, hwithin, -, hcounts⟩ := @read_reach 16777222 (by decide) (by decide)
  refine ⟨d, hd, hwithin.2 (by decide), fun calls delay => ?_⟩
  obtain ⟨-, hok, hfar⟩ := hcounts calls
  exact (hok delay).2 (hfar.2 (le_add_left (by decide)) delay)

/-- Of a line of `2 ^ 24 + 4` samples the farthest distance is rounded up to its size. There the
count of cells runs below zero while nothing is written, and after one write the newest sample is read
in the place of the oldest. -/
theorem read_reach_beyond : ∃ d, new 16777220 = .ok d ∧
    Single.toNat (clampDelay 16777220 Single.infinity) = 16777220 ∧
    Guard.readDelay d Single.infinity = .error .overflow ∧
    (d.after [.write 1.0]).read Single.infinity = 1.0 := by
  obtain ⟨d, hd⟩ : ∃ d, new 16777220 = .ok d :=
    ⟨_, new_eq (by decide) (by decide)⟩
  have hcapacity := capacity_new hd
  have hroom : HasRoom 16777220 := by decide
  have hwhole : Single.toNat (clampDelay 16777220 Single.infinity) = 16777220 := by decide
  refine ⟨d, hd, hwhole, ?_, ?_⟩
  · refine readDelay_overflow (hcapacity ▸ hroom) ?_
    rw [next_new hd, hcapacity, hwhole]
  · have hline := (capacity_after d [.write 1.0]).trans hcapacity
    have hnext : (d.after [.write 1.0]).next = 1 := by
      rw [next_after (next_new hd), hcapacity]
      rfl
    have hcells := (recalls_new hd).after [.write 1.0]
    generalize d.after [.write 1.0] = line at *
    have hindex : line.index 16777220 = 0 := by
      rw [index_of_lt (hline ▸ hroom) (by omega), hline, hnext]
    have hnewest := hcells 0 line.capacity_pos
    have hbefore := hcells 1 (by omega)
    rw [hline, hnext] at hnewest hbefore
    rw [read]
    simp only [hline, hwhole, hindex]
    rw [show line.cells.getD 0 0.0 = 1.0 from hnewest,
      show line.cells.getD ((0 + 16777220 - 1) % 16777220) 0.0 = 0.0 from hbefore]
    decide

end DelayLine

end Patchbay
