import Mathlib
import Patchbay.Proofs.Guard
import Patchbay.Proofs.Inertness
import Patchbay.Proofs.Tuning
import Patchbay.Proofs.WholeNumber

/-!
# Runs that do not stop

A guarded run stops at the first check that fails. What the checks ask for is stated once for a
kernel, a program and a run, as something that is kept from frame to frame: then no check fails
and the guarded run is the plain one. Of a patch of built-in types two things are asked. Its
filters need room between their lowest and their highest cutoff, and its delay lines need memory;
a sample rate that a renderer accepts may have neither.
-/

set_option autoImplicit false

namespace Patchbay

theorem hasRoom_of_le {n : Nat} (h : n ≤ 2 ^ 24) : HasRoom n := by
  rw [HasRoom]
  omega

namespace Guard

theorem sum_eq {a b : Nat} (h : a + b < 2 ^ 64) : sum a b = .ok (a + b) := if_pos h

theorem difference_eq {a b : Nat} (h : b ≤ a) : difference a b = .ok (a - b) := if_pos h

theorem get_eq {xs : Array Float32} {i : Nat} (h : i < xs.size) :
    get xs i = .ok (xs.getD i 0.0) := by
  rw [get, Array.getD_eq_getD_getElem?, Array.getElem?_eq_getElem h]
  rfl

theorem set_eq {xs : Array Float32} {i : Nat} (h : i < xs.size) (x : Float32) :
    set xs i x = .ok (xs.setIfInBounds i x) := if_pos h

theorem room_eq {n : Nat} (h : HasRoom n) : room n = .ok () := if_pos h

theorem bounds_eq {low high : Float32} (h : low ≤ high) : bounds low high = .ok () := if_pos h

end Guard

namespace DelayLine

/-- A line that memory has room for and whose greatest distance is a single. -/
structure Sized (d : DelayLine) : Prop where
  room : HasRoom d.capacity
  short : Rounding.Short (d.capacity - 1)

/-- A distance that the next cell and a whole round reach over is counted without an underflow. -/
theorem index_of_lt {d : DelayLine} (hroom : HasRoom d.capacity) {k : Nat}
    (hk : k < d.next + d.capacity) : d.index k = (d.next + d.capacity - k - 1) % d.capacity := by
  rw [HasRoom] at hroom
  have hnext : d.next < d.capacity := d.next_lt
  rw [index]
  congr 1
  simp only [UInt64.toNat_sub, UInt64.toNat_add, UInt64.toNat_one]
  rw [Single.toNat_toUInt64 (by omega), Single.toNat_toUInt64 (by omega),
    Single.toNat_toUInt64 (by omega)]
  omega

theorem index_eq {d : DelayLine} (h : d.Sized) {k : Nat} (hk : k ≤ d.capacity - 1) :
    d.index k = (d.next + d.capacity - k - 1) % d.capacity :=
  have hpos := d.capacity_pos
  index_of_lt h.room (by omega)

theorem read_of_lt {d : DelayLine} (hroom : HasRoom d.capacity) {delay : Float32}
    (hk : Single.toNat (clampDelay d.capacity delay) < d.next + d.capacity) :
    Guard.readDelay d delay = .ok (d.read delay) := by
  have hpos := d.capacity_pos
  have hnext : d.next < d.capacity := d.next_lt
  have hi := index_of_lt hroom hk
  rw [HasRoom] at hroom
  have hlt (i : Nat) : i % d.capacity < d.cells.size := Nat.mod_lt _ hpos
  rw [clampDelay] at hk hi
  have hlt' := hlt (d.next + d.capacity -
    Single.toNat (Single.min (Single.max delay 0.0) (Single.ofNat (d.capacity - 1))) - 1)
  rw [← hi] at hlt'
  change _ < d.capacity at hlt'
  rw [Guard.readDelay, @Guard.difference_eq d.capacity 1 hpos, ok_bind, Guard.sum_eq (by omega),
    ok_bind, Guard.difference_eq (by omega), ok_bind, Guard.difference_eq (by omega), ok_bind, ← hi,
    Guard.sum_eq (by omega), ok_bind, Guard.difference_eq (by omega), ok_bind, Guard.get_eq hlt',
    ok_bind, Guard.get_eq (hlt _), ok_bind]
  rfl

theorem read_guarded {d : DelayLine} (h : d.Sized) (delay : Float32) :
    Guard.readDelay d delay = .ok (d.read delay) := by
  have hroom : 4 * d.capacity < 2 ^ 63 := h.room
  have hpos := d.capacity_pos
  have hk := Single.toNat_min_le (by omega) h.short (Single.max delay 0.0)
  exact read_of_lt h.room (by rw [clampDelay]; omega)

theorem write_guarded {d : DelayLine} (h : d.Sized) (x : Float32) :
    Guard.writeDelay d x = .ok (d.write x) := by
  have hroom : 4 * d.capacity < 2 ^ 63 := h.room
  have hnext : d.next < d.capacity := d.next_lt
  rw [Guard.writeDelay, Guard.set_eq d.next_lt, ok_bind, Guard.sum_eq (by omega), ok_bind]
  rfl

theorem sized_write {d : DelayLine} (h : d.Sized) (x : Float32) : (d.write x).Sized := by
  obtain ⟨hroom, hshort⟩ := h
  rw [← d.capacity_write x] at hroom hshort
  exact ⟨hroom, hshort⟩

theorem capacity_new {n : Nat} {d : DelayLine} (h : new n = .ok d) : d.capacity = n := by
  obtain ⟨-, -, rfl⟩ := new_eq_ok_iff.1 h
  simp [capacity]

/-- A line that memory has room for has one sample more than the whole samples of its time. -/
theorem samplesFor_sized {rate seconds : Float32}
    (h : HasRoom (Single.toNat (rate * Single.max seconds 0.0) + 1)) :
    samplesFor rate seconds = Single.toNat (rate * Single.max seconds 0.0) + 1 ∧
      HasRoom (samplesFor rate seconds) ∧ Rounding.Short (samplesFor rate seconds - 1) := by
  have hroom : 4 * (Single.toNat (rate * Single.max seconds 0.0) + 1) < 2 ^ 63 := h
  have hcount : samplesFor rate seconds =
      Single.toNat (rate * Single.max seconds 0.0) + 1 :=
    Nat.mod_eq_of_lt (by simp only [UInt64.size]; omega)
  refine ⟨hcount, by rwa [hcount], ?_⟩
  rw [hcount, Nat.add_sub_cancel]
  exact Single.short_toNat (by omega)

/-- A line of some seconds is set up if memory has room for it. -/
theorem ofTime_guarded {rate seconds : Float32}
    (h : HasRoom (Single.toNat (rate * Single.max seconds 0.0) + 1)) :
    ∃ d, ofTime rate seconds = .ok d ∧ Guard.newDelay rate seconds = .ok d ∧ d.Sized := by
  obtain ⟨hcount, hroom, hshort⟩ := samplesFor_sized h
  obtain ⟨d, hd⟩ : ∃ d, new (samplesFor rate seconds) = .ok d := ⟨_, new_eq (by omega) hroom⟩
  have hcapacity := capacity_new hd
  refine ⟨d, hd, ?_, by rwa [hcapacity], by rwa [hcapacity]⟩
  rw [hcount] at hd
  rw [HasRoom] at h
  rw [Guard.newDelay, Guard.sum_eq (by omega), ok_bind, hd]
  rfl

end DelayLine

/-- The rate and the memory that an operation asks for. -/
def Op.Admits (rate : Float32) : Op → Prop
  | .filter _ => Filter.lowestCutoff ≤ Filter.highestCutoff rate
  | .delay maxMs => HasRoom (Single.toNat (rate * Single.max (maxMs / 1000.0) 0.0) + 1)
  | _ => True

instance (rate : Float32) : DecidablePred (Op.Admits rate)
  | .filter _ => inferInstanceAs (Decidable (_ ≤ _))
  | .delay _ => inferInstanceAs (Decidable (HasRoom _))
  | .const _ | .binary _ | .oscillator _ | .noise | .envelope | .steps _ _ _ | .tap _ =>
    .isTrue trivial

namespace Kernel

/-- What keeps a kernel from stopping, `t` frames after it was set up. -/
def Safe (t : Nat) : Kernel → Prop
  | filter f => Filter.lowestCutoff ≤ Filter.highestCutoff f.sampleRate
  | delay d => d.Sized
  | steps s => ∀ i ∈ s.position, i < t
  | meter _ x => x.count ≤ t
  | scope _ size held => held.size < size ∧ HasRoom size
  | fft _ size held => held.size < size ∧ HasRoom size
  | _ => True

variable {rate : Float32} {t : Nat}

theorem setup_guarded {op : Op} (key : Option String) (hw : op.HasWindow) (ha : op.Admits rate) :
    ∃ k, setup op key rate = .ok k ∧ Guard.setup op key rate = .ok k ∧ k.Safe 0 := by
  cases op with
  | delay maxMs =>
    obtain ⟨d, hd, hguard, hsized⟩ := DelayLine.ofTime_guarded ha
    refine ⟨delay d, ?_, ?_, hsized⟩
    · rw [setup, hd]
    · rw [Guard.setup, hguard]
      rfl
  | tap t =>
    have hplain : setup (.tap t) key rate = .ok (ofTap t) := setup_tap_iff.2 ⟨hw, rfl⟩
    refine ⟨ofTap t, hplain, ?_, ?_⟩
    · show (setup (.tap t) key rate).mapError Guard.ofSetup = _
      rw [hplain]
      rfl
    · cases t with
      | meter name => exact Nat.le_refl 0
      | scope name size => exact hw
      | fft name size => exact hw
  | filter mode => exact ⟨_, rfl, rfl, ha⟩
  | steps values hold loops => exact ⟨_, rfl, rfl, fun i hi => by cases hi⟩
  | _ => exact ⟨_, rfl, rfl, trivial⟩

theorem move_lt {s : StepSequencer} (h : ∀ i ∈ s.position, i < t) (trigger reset : Bool) :
    ∀ i ∈ s.move trigger reset, i < t + 1 := by
  have hreset : ∀ i ∈ (if reset && !s.resetHigh then none else s.position), i < t := by
    split
    · intro i hi
      cases hi
    · exact h
  rw [StepSequencer.move]
  generalize (if reset && !s.resetHigh then none else s.position) = p at hreset
  split
  · intro i hi
    obtain rfl := Option.some.inj hi
    cases p with
    | none => exact Nat.succ_pos t
    | some j =>
      have hj := hreset j rfl
      rw [StepSequencer.nextPosition]
      split
      · omega
      · split <;> omega
  · intro i hi
    exact (hreset i hi).trans (Nat.lt_succ_self t)

theorem setCutoff_ok {f : Filter} (h : (filter f).Safe t) (hz : Float32) :
    ∃ g, f.setCutoff hz = .ok g := by
  have hroom : Filter.lowestCutoff ≤ Filter.highestCutoff f.sampleRate := h
  rw [Filter.setCutoff]
  split
  · rw [Filter.clampCutoff, if_pos hroom]
    exact ⟨_, rfl⟩
  · exact ⟨f, rfl⟩

theorem gather_eq {size : Nat} {held : Array Float32} (h : held.size < size ∧ HasRoom size)
    (x : Float32) : Guard.gather held x = .ok (held.push x) := by
  have hroom : 4 * size < 2 ^ 63 := h.2
  rw [Guard.gather, Guard.sum_eq (by omega), ok_bind, Guard.room_eq (by rw [HasRoom]; omega)]
  rfl

theorem safe_empty {size : Nat} {held : Array Float32} (h : held.size < size ∧ HasRoom size) :
    (#[] : Array Float32).size < size ∧ HasRoom size :=
  ⟨Nat.zero_lt_of_lt h.1, h.2⟩

theorem endBlock_safe {k : Kernel} (h : k.Safe t) : k.endBlock.1.Safe t := by
  cases k with
  | meter name x =>
    rw [endBlock]
    split
    · exact h
    · exact Nat.zero_le t
  | _ => exact h

/-- No check fails in a frame, and the kernel is as safe a frame later. -/
theorem tick_guarded {k : Kernel} (h : k.Safe t) (ht : t + 1 < 2 ^ 64) (rate : Float32)
    (arg : Nat → Float32) :
    ∃ s, k.tick arg rate = .ok s ∧ Guard.tick k arg rate = .ok s ∧ s.kernel.Safe (t + 1) := by
  cases k with
  | filter f =>
    obtain ⟨g, hg⟩ := setCutoff_ok h (arg 0)
    have hrate : (g.setResonance (arg 1)).sampleRate = f.sampleRate :=
      (Filter.setResonance_fixed g (arg 1)).1.trans (Filter.setCutoff_fixed hg).1
    refine ⟨_, by rw [tick, hg], ?_, ?_⟩
    · rw [Guard.tick, Guard.setCutoff, Guard.bounds_eq h, ok_bind, hg]
      rw [Guard.bounds_eq (by decide)]
      rfl
    · show _ ≤ Filter.highestCutoff (g.setResonance (arg 1)).sampleRate
      rw [hrate]
      exact h
  | delay d =>
    refine ⟨_, rfl, ?_, DelayLine.sized_write h _⟩
    rw [Guard.tick, DelayLine.read_guarded h, ok_bind, DelayLine.write_guarded h]
    rfl
  | envelope e gate =>
    refine ⟨_, rfl, ?_, trivial⟩
    rw [Guard.tick, Guard.bounds_eq (by decide)]
    rfl
  | steps s =>
    refine ⟨_, rfl, ?_, move_lt h _ _⟩
    have hlt : s.position.getD 0 ≤ t := by
      cases hp : s.position with
      | none => exact Nat.zero_le _
      | some i => exact (h i hp).le
    rw [Guard.tick, Guard.sum_eq (by omega)]
    rfl
  | meter name x =>
    refine ⟨_, rfl, ?_, Nat.succ_le_succ h⟩
    rw [Guard.tick, Guard.sum_eq (by rw [Safe] at h; omega)]
    rfl
  | scope name size held =>
    have hheld := gather_eq h (arg 0)
    rw [tick, Guard.tick, hheld, ok_bind]
    split
    · exact ⟨_, rfl, rfl, safe_empty h⟩
    · next hsize => exact ⟨_, rfl, rfl, not_le.1 hsize, h.2⟩
  | fft name size held =>
    have hheld := gather_eq h (arg 0)
    rw [tick, Guard.tick, hheld, ok_bind]
    split
    · exact ⟨_, rfl, rfl, safe_empty h⟩
    · next hsize => exact ⟨_, rfl, rfl, not_le.1 hsize, h.2⟩
  | _ => exact ⟨_, rfl, rfl, trivial⟩
end Kernel

open Patchbay.Expr

variable {rate : Float32} {t : Nat} {left right : Expr}

/-- What keeps a cell from stopping among `slots` slots. -/
structure Cell.Safe (t slots : Nat) (c : Cell) : Prop where
  kernel : c.kernel.Safe t
  args : ∀ slot ∈ c.args, slot < slots
  arity : c.args.length ≤ Program.scratch.size

/-- What keeps a program from stopping, `t` frames after it was built. -/
structure Program.Safe (t : Nat) (p : Program) : Prop where
  cells : ∀ c ∈ p.cells, c.Safe t p.values.size
  slots : p.cells.length = p.values.size
  left : p.left < p.values.size
  right : p.right < p.values.size

namespace Program

theorem slotOf_lt (nodes : List Expr) (e : Expr) : slotOf nodes e < nodes.length + 1 := by
  rw [slotOf]
  split
  · next i hi =>
    obtain ⟨hlt, -⟩ := List.findIdx?_eq_some_iff_getElem.1 hi
    omega
  · omega

theorem argSlots_lt (nodes : List Expr) (e : Expr) :
    ∀ slot ∈ argSlots nodes e, slot < nodes.length + 1 := by
  intro slot hslot
  obtain ⟨i, -, rfl⟩ := List.mem_map.1 hslot
  split
  · exact slotOf_lt nodes _
  · omega

theorem build_guarded (hs : Coherent (under [left, right]))
    (hw : ∀ e ∈ under [left, right], e.op.HasWindow)
    (ha : ∀ e ∈ under [left, right], e.op.Admits rate) :
    ∃ p, build left right rate = .ok p ∧ Guard.build left right rate = .ok p ∧ p.Safe 0 := by
  have hcell : ∀ e ∈ nodesOf [left, right], ∃ c,
      cellOf (nodesOf [left, right]) rate e = .ok c ∧
      Guard.cellOf (nodesOf [left, right]) rate e = .ok c ∧
      c.Safe 0 ((nodesOf [left, right]).length + 1) := by
    intro e he
    have he' := (mem_nodesOf _ hs e).1 he
    obtain ⟨k, hk, hguard, hsafe⟩ := Kernel.setup_guarded e.key (hw e he') (ha e he')
    refine ⟨_, (cellOf_ok_iff _ _ _).2 ⟨k, hk, rfl⟩, ?_, hsafe, argSlots_lt _ e, ?_⟩
    · rw [Guard.cellOf, hguard]
      rfl
    · rw [argSlots_length]
      exact arity_le e.op
  obtain ⟨cells, hcells⟩ := (exists_forall₂ _ _).2 hcell
  have hlength := hcells.length_eq
  refine ⟨_, (build_eq_ok_iff _).2 ⟨cells, hcells.imp fun _ _ h => h.1, rfl⟩, ?_, ?_⟩
  · rw [Guard.build, (mapM_ok_iff _ _ _).2 (hcells.imp fun _ _ h => h.2.1)]
    rfl
  · have hzero : (zeroCell).Safe 0 ((nodesOf [left, right]).length + 1) :=
      ⟨trivial, by simp [zeroCell], Nat.zero_le _⟩
    have hrest : ∀ c ∈ cells, c.Safe 0 ((nodesOf [left, right]).length + 1) :=
      ((List.forall₂_and_left cells _).1 (List.Forall₂.flip
        (hcells.imp fun _ _ h => (⟨h.2.2, trivial⟩ : _ ∧ True)))).1
    have hsafe := List.forall_mem_cons.2 ⟨hzero, hrest⟩
    have hsize : (Array.replicate (cells.length + 1) (0.0 : Float32)).size =
        (nodesOf [left, right]).length + 1 := by simp [hlength]
    exact ⟨by rwa [hsize], by simp, by rw [hsize]; exact slotOf_lt _ _,
      by rw [hsize]; exact slotOf_lt _ _⟩

theorem size_fetch (values : Array Float32) (i : Nat) (args : List Nat) (scratch : Array Float32) :
    (fetch values i args scratch).size = scratch.size := by
  induction args generalizing i scratch with
  | nil => rfl
  | cons slot args ih => rw [fetch, ih, Array.size_setIfInBounds]

theorem fetch_guarded {values : Array Float32} {args : List Nat}
    (h : ∀ slot ∈ args, slot < values.size) (i : Nat) (scratch : Array Float32)
    (hi : i + args.length ≤ scratch.size) :
    Guard.fetch values i args scratch = .ok (fetch values i args scratch) := by
  induction args generalizing i scratch with
  | nil => rfl
  | cons slot args ih =>
    rw [List.forall_mem_cons] at h
    rw [List.length_cons] at hi
    rw [Guard.fetch, Guard.get_eq h.1, ok_bind, Guard.set_eq (by omega), ok_bind,
      ih h.2 _ _ (by rw [Array.size_setIfInBounds]; omega), fetch]

/-- No cell stops, and the cells are as safe a frame later. -/
theorem step_guarded (ht : t + 1 < 2 ^ 64) (rate : Float32) {cells : List Cell} (slot : Nat)
    (values scratch : Array Float32) (h : ∀ c ∈ cells, c.Safe t values.size)
    (hslot : slot + cells.length ≤ values.size) (hscratch : scratch.size = Program.scratch.size) :
    ∃ f, step rate cells slot values scratch = .ok f ∧
      Guard.step rate cells slot values scratch = .ok f ∧
      (∀ c ∈ f.cells, c.Safe (t + 1) values.size) ∧ f.cells.length = cells.length ∧
      f.values.size = values.size := by
  induction cells generalizing slot values scratch with
  | nil => exact ⟨_, rfl, rfl, by simp, rfl, rfl⟩
  | cons c cells ih =>
    obtain ⟨kernel, args⟩ := c
    rw [List.forall_mem_cons] at h
    obtain ⟨⟨hkernel, hargs, harity⟩, hrest⟩ := h
    rw [List.length_cons] at hslot
    have hfetch := fetch_guarded hargs 0 scratch (by rw [Nat.zero_add, hscratch]; exact harity)
    obtain ⟨s, hs, hguard, hsafe⟩ := Kernel.tick_guarded hkernel ht rate
      fun i => (fetch values 0 args scratch).getD i 0.0
    obtain ⟨f, hf, hguard', hcells, hlength, hsize⟩ := ih (slot + 1)
      (values.setIfInBounds slot s.value) (fetch values 0 args scratch)
      (by rwa [Array.size_setIfInBounds]) (by rw [Array.size_setIfInBounds]; omega)
      ((size_fetch _ _ _ _).trans hscratch)
    rw [Array.size_setIfInBounds] at hcells hsize
    refine ⟨⟨⟨s.kernel, args⟩ :: f.cells, f.values, s.raised.toList ++ f.raised⟩, ?_, ?_, ?_, ?_,
      hsize⟩
    · rw [step, hs]
      simp only [hf]
    · rw [Guard.step, hfetch, ok_bind, hguard, ok_bind, Guard.set_eq (by omega), ok_bind, hguard']
      rfl
    · rw [List.forall_mem_cons]
      exact ⟨⟨hsafe, hargs, harity⟩, hcells⟩
    · rw [List.length_cons, List.length_cons, hlength]

theorem endBlock_safe {p : Program} (h : p.Safe t) : p.endBlock.2.Safe t := by
  obtain ⟨hcells, hslots, hleft, hright⟩ := h
  refine ⟨?_, by simpa [endBlock] using hslots, hleft, hright⟩
  intro c hc
  simp only [endBlock, List.map_map, List.mem_map, Function.comp_apply] at hc
  obtain ⟨b, hb, rfl⟩ := hc
  obtain ⟨hkernel, hargs, harity⟩ := hcells b hb
  exact ⟨Kernel.endBlock_safe hkernel, hargs, harity⟩

end Program

namespace Renderer

/-- Nobody listens, so nothing is delivered. -/
theorem route_guarded {bus : ProbeBus} (h : bus.subscriptions = []) (raised : List Raised)
    (done : List Delivery) :
    route raised bus done = (done, bus) ∧ Guard.route raised bus done = .ok (done, bus) := by
  have hwants (tag : ProbeTag) : bus.wants tag = false := by
    rw [ProbeBus.wants, ProbeBus.find?, h]
    rfl
  induction raised with
  | nil => exact ⟨rfl, rfl⟩
  | cons e raised ih =>
    have hemit : bus.emitWith e.tag e.build = ([], bus) := by
      rw [ProbeBus.emitWith, hwants]
      rfl
    rw [route, Guard.route, hemit, hwants]
    exact ih

/-- What keeps a run from stopping after `t` frames. -/
structure Run.Safe (t : Nat) (run : Run) : Prop where
  program : run.program.Safe t
  quiet : run.bus.subscriptions = []
  blockPos : run.blockPos ≤ t

theorem frame_guarded (ht : t + 1 < 2 ^ 64) (blockSize : Nat) {run : Run} (h : run.Safe t) :
    ∃ run', run.frame blockSize = .ok run' ∧ Guard.frame blockSize run = .ok run' ∧
      run'.Safe (t + 1) := by
  obtain ⟨⟨cells, values, constants, taps, left, right, rate⟩, bus, pos, out, delivered⟩ := run
  obtain ⟨⟨hcells, hslots, hleft, hright⟩, hquiet, hpos⟩ := h
  dsimp only at hcells hslots hleft hright hquiet hpos
  obtain ⟨f, hf, hguard, hsafe, hlength, hsize⟩ := Program.step_guarded ht rate 0 values
    Program.scratch hcells (by omega) rfl
  have hprogram : Program.Safe (t + 1)
      ⟨f.cells, f.values, constants, taps, left, right, rate⟩ :=
    ⟨by rwa [← hsize] at hsafe, by rw [hlength, hslots, hsize], by rwa [← hsize] at hleft,
      by rwa [← hsize] at hright⟩
  rw [Run.frame, Guard.frame]
  simp only [hf, hguard, ok_bind]
  rw [Guard.get_eq (by omega), ok_bind, Guard.get_eq (by omega), ok_bind,
    (route_guarded hquiet _ _).2, ok_bind, Guard.sum_eq (by omega), ok_bind,
    (route_guarded hquiet _ _).1]
  split
  · rw [(route_guarded hquiet _ _).2, (route_guarded hquiet _ _).1]
    exact ⟨_, rfl, rfl, Program.endBlock_safe hprogram, hquiet, Nat.zero_le _⟩
  · exact ⟨_, rfl, rfl, hprogram, hquiet, Nat.succ_le_succ hpos⟩

theorem frames_guarded (blockSize : Nat) {n : Nat} (ht : t + n < 2 ^ 64) {run : Run}
    (h : run.Safe t) :
    ∃ run', Run.frames blockSize n run = .ok run' ∧ Guard.frames blockSize n run = .ok run' := by
  induction n generalizing t run with
  | zero => exact ⟨run, rfl, rfl⟩
  | succ n ih =>
    obtain ⟨next, hnext, hguard, hsafe⟩ := frame_guarded (by omega) blockSize h
    obtain ⟨run', hrun', hguard'⟩ := ih (by omega) hsafe
    refine ⟨run', ?_, ?_⟩
    · rw [Run.frames, hnext]
      exact hrun'
    · rw [Guard.frames, hguard, ok_bind, hguard']

/-- Two roots are loaded and played on, with all checks and without them alike. -/
theorem play_guarded {r : Renderer} (hs : Coherent (under [left, right]))
    (hw : ∀ e ∈ under [left, right], e.op.HasWindow)
    (ha : ∀ e ∈ under [left, right], e.op.Admits r.sampleRate) (hquiet : r.bus.subscriptions = [])
    {n : Nat} (hn : HasRoom n) :
    ∃ loaded heard, r.load left right = .ok loaded ∧ Guard.load r left right = .ok loaded ∧
      loaded.process n = .ok heard ∧ Guard.process loaded n = .ok heard := by
  have hwords : 4 * n < 2 ^ 63 := hn
  obtain ⟨p, hp, hguard, hsafe⟩ := Program.build_guarded hs hw ha
  have hstart : Run.Safe 0 ⟨p, r.bus, 0, .empty, []⟩ := ⟨hsafe, hquiet, le_rfl⟩
  obtain ⟨run, hrun, hguard'⟩ := frames_guarded (n := n) r.blockSize (by omega) hstart
  refine ⟨{ r with loaded := some ⟨left, right, p, []⟩, blockPos := 0, frames := 0 }, _, ?_, ?_,
    by rw [process]; simp only [hrun]; rfl, ?_⟩
  · rw [load, buildProgram, hp]
    rfl
  · rw [Guard.load, hguard]
    rfl
  · rw [Guard.process, Guard.room_eq hn, ok_bind]
    simp only [hguard', ok_bind]
    rw [Guard.sum_eq (by omega)]
    rfl

end Renderer

/-- What a patch compiles to is rendered without a panic, whatever the options and the block size,
at every rate that leaves its filters a range and its delay lines memory, for as many frames as
memory holds. -/
theorem render_guarded (options : CompileOptions) (nodes : List Node) (edges : List Edge)
    {t : RenderTarget} (h : (Compile.patch .builtin options nodes edges).target = some t)
    {r : Renderer} (hr : Renderer.new rate = .ok r)
    (admits : ∀ e ∈ under [t.left, t.right], e.op.Admits rate) (blockSize n : Nat)
    (hn : HasRoom n) :
    ∃ loaded heard, (r.withBlockSize blockSize).load t.left t.right = .ok loaded ∧
      Guard.load (r.withBlockSize blockSize) t.left t.right = .ok loaded ∧
      loaded.process n = .ok heard ∧ Guard.process loaded n = .ok heard := by
  obtain ⟨bare, -, hi⟩ := Compile.patch_spec builtin_sound h
  obtain ⟨known, hg, hl, hright⟩ := hi.grown
  have hroots : ∀ e ∈ [t.left, t.right], e ∈ known := by simp [hl, hright]
  have hformed : ∀ e ∈ under [t.left, t.right], e.op.HasWindow := fun e he =>
    (hg.formed e (partsAll_of_grown hg _ hroots e he)).window
  have hnew : r.sampleRate = rate ∧ r.bus.subscriptions = [] := by
    obtain ⟨-, -, hr⟩ := ok_of_bind hr
    cases hr
    exact ⟨rfl, rfl⟩
  rw [← hnew.1] at admits
  exact Renderer.play_guarded (r := r.withBlockSize blockSize) (coherent_of_grown hg hroots) hformed
    admits hnew.2 hn

/-- A number behind a filter. -/
def filteredNodes : List Node :=
  [⟨"n", "number", none, .empty⟩, ⟨"f", "filter", none, .empty⟩, ⟨"out", "output", none, .empty⟩]

def filteredEdges : List Edge :=
  [⟨"a", "n", "signal", "f", "input"⟩, ⟨"b", "f", "signal", "out", "left"⟩]

def filteredTarget : RenderTarget :=
  (Compile.patch .builtin ⟨true, false⟩ filteredNodes filteredEdges).target.getD
    ⟨Renderer.silentRoot, Renderer.silentRoot⟩

theorem render_guarded_filter :
    (Compile.patch .builtin ⟨true, false⟩ filteredNodes filteredEdges).target =
      some filteredTarget ∧
    ∃ r loaded heard, Renderer.new 48000.0 = .ok r ∧
    (r.withBlockSize 64).load filteredTarget.left filteredTarget.right = .ok loaded ∧
    Guard.load (r.withBlockSize 64) filteredTarget.left filteredTarget.right = .ok loaded ∧
    loaded.process 1000 = .ok heard ∧ Guard.process loaded 1000 = .ok heard := by
  have hadmits : ∀ e ∈ partsAll [filteredTarget.left, filteredTarget.right],
      e.op.Admits 48000.0 := by decide
  obtain ⟨loaded, heard, hplay⟩ := render_guarded ⟨true, false⟩ filteredNodes filteredEdges
    (t := filteredTarget) rfl rfl hadmits 64 1000 (by decide)
  exact ⟨rfl, _, loaded, heard, rfl, hplay⟩

/-- A rate of 40 Hz is accepted, and the first frame of a filter panics. -/
theorem render_guarded_low :
    (Compile.patch .builtin ⟨true, false⟩ filteredNodes filteredEdges).target =
      some filteredTarget ∧
    ∃ r loaded, Renderer.new 40.0 = .ok r ∧
    r.load filteredTarget.left filteredTarget.right = .ok loaded ∧
    loaded.process 1 = .error .emptyCutoffRange ∧
    Guard.process loaded 1 = .error .reversedBounds := by
  exact ⟨rfl, _, _, rfl, rfl, rfl, rfl⟩

end Patchbay
