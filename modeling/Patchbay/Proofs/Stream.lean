import Mathlib
import Patchbay.Render.Kernel
import Patchbay.Proofs.Sharing

/-!
# Streams

What a node sounds like, without slots and without sharing: its kernel, fresh at the first frame
and stepped once a frame on what its children yield at that frame. A constant with a key yields
what was last set under the key. A stream ends where a kernel cannot go on.
-/

set_option autoImplicit false

namespace Patchbay

/-- The value set last before a frame, by frame and key. -/
abbrev Settings := Nat → String → Option Float32

/-- A sample for each frame as far as there is one. -/
abbrev Samples := Nat → Option Float32

namespace Tap

/-- The windows it reports hold some samples, and no more than there can be room for. -/
def HasWindow : Tap → Prop
  | meter _ => True
  | scope _ size => 0 < size ∧ HasRoom size
  | fft _ size => 0 < size ∧ HasRoom size

end Tap

/-- If it is a tap it has a window to fill, and no larger one than memory could have. -/
def Op.HasWindow : Op → Prop
  | .tap t => t.HasWindow
  | _ => True

namespace Kernel

/-- One frame on arguments that stand at frame `t`; missing ones are zero. -/
def stepAt (rate : Float32) (args : List Samples) (t : Nat) (k : Kernel) : Option Step := do
  let xs ← args.mapM (· t)
  (k.tick (fun i => xs.getD i 0.0) rate).toOption

/-- The kernel before frame `t`, stepped once in every frame so far. -/
def before (rate : Float32) (args : List Samples) (k : Kernel) : Nat → Option Kernel
  | 0 => some k
  | t + 1 => (before rate args k t).bind fun k => (k.stepAt rate args t).map Step.kernel

def samples (rate : Float32) (args : List Samples) (k : Kernel) : Samples :=
  fun t => (before rate args k t).bind fun k => (k.stepAt rate args t).map Step.value

end Kernel

namespace Expr

/-- A node over the streams of its children. Children beyond the arity are not looked at. -/
def nodeStream (rate : Float32) (held : Settings) (op : Op) (key : Option String)
    (children : List Samples) : Samples :=
  match op with
  | .const v => fun t => some ((key.bind (held t)).getD v)
  | op =>
    match Kernel.setup op key rate with
    | .ok k => k.samples rate (children.take op.arity)
    | .error _ => fun _ => none

mutual

def stream (rate : Float32) (held : Settings) : Expr → Samples
  | node _ op key cs => nodeStream rate held op key (streams rate held cs)

def streams (rate : Float32) (held : Settings) : List Expr → List Samples
  | [] => []
  | c :: cs => stream rate held c :: streams rate held cs

end

mutual

/-- The tree of an expression: all labels are made one, so that nothing is left of sharing. -/
def unlabelled : Expr → Expr
  | node _ op key cs => node ⟨.free, 0⟩ op key (unlabelledAll cs)

def unlabelledAll : List Expr → List Expr
  | [] => []
  | c :: cs => unlabelled c :: unlabelledAll cs

end

mutual

/-- Sharing cannot be heard. -/
theorem stream_unlabelled (rate : Float32) (held : Settings) (e : Expr) :
    e.unlabelled.stream rate held = e.stream rate held := by
  obtain ⟨l, op, key, cs⟩ := e
  rw [unlabelled, stream, stream, streams_unlabelled]

theorem streams_unlabelled (rate : Float32) (held : Settings) (cs : List Expr) :
    streams rate held (unlabelledAll cs) = streams rate held cs := by
  match cs with
  | [] => rfl
  | c :: cs => rw [unlabelledAll, streams, streams, stream_unlabelled, streams_unlabelled]

end

mutual

theorem parts_unlabelled (e : Expr) : parts e.unlabelled = (parts e).map unlabelled := by
  obtain ⟨l, op, key, cs⟩ := e
  rw [unlabelled, parts, parts, List.map_cons, unlabelled, partsAll_unlabelled]

theorem partsAll_unlabelled (cs : List Expr) :
    partsAll (unlabelledAll cs) = (partsAll cs).map unlabelled := by
  match cs with
  | [] => rfl
  | c :: cs =>
    rw [unlabelledAll, partsAll, partsAll, List.map_append, parts_unlabelled, partsAll_unlabelled]

end

theorem op_unlabelled (e : Expr) : e.unlabelled.op = e.op := by
  cases e
  rfl

theorem key_unlabelled (e : Expr) : e.unlabelled.key = e.key := by
  cases e
  rfl

end Expr

namespace Kernel

/-- The number of arguments a kernel looks at. -/
def reads : Kernel → Nat
  | const _ => 0
  | noise _ => 0
  | oscillator _ => 1
  | meter _ _ => 1
  | scope _ _ _ => 1
  | fft _ _ _ => 1
  | binary _ => 2
  | steps _ => 2
  | filter _ => 3
  | delay _ => 3
  | envelope _ _ => 5

theorem tick_congr (k : Kernel) (f g : Nat → Float32) (rate : Float32)
    (h : ∀ i < k.reads, f i = g i) : k.tick f rate = k.tick g rate := by
  cases k <;> simp only [reads] at h <;> simp only [tick]
  case binary => rw [h 0 (by omega), h 1 (by omega)]
  case oscillator => rw [h 0 (by omega)]
  case filter => rw [h 0 (by omega), h 1 (by omega), h 2 (by omega)]
  case delay => rw [h 0 (by omega), h 1 (by omega), h 2 (by omega)]
  case envelope =>
    rw [h 0 (by omega), h 1 (by omega), h 2 (by omega), h 3 (by omega), h 4 (by omega)]
  case steps => rw [h 0 (by omega), h 1 (by omega)]
  case meter => rw [h 0 (by omega)]
  case scope => rw [h 0 (by omega)]
  case fft => rw [h 0 (by omega)]

theorem window_eq_ok_iff {t : Tap} {size : Nat} {k k' : Kernel} :
    window t size k = .ok k' ↔ (0 < size ∧ HasRoom size) ∧ k' = k := by
  rw [window]
  split
  · next hzero => simp [hzero]
  · next hsize =>
    split
    · next hroom => simp [hroom, Nat.pos_of_ne_zero hsize, eq_comm]
    · next hroom => simp [hroom]

/-- The kernel of a tap that has seen nothing. -/
def ofTap : Tap → Kernel
  | .meter name => meter name .empty
  | .scope name size => scope name size #[]
  | .fft name size => fft name size #[]

theorem setup_tap_iff {t : Tap} {key : Option String} {rate : Float32} {k : Kernel} :
    setup (.tap t) key rate = .ok k ↔ t.HasWindow ∧ k = ofTap t := by
  cases t with
  | meter name => simp [setup, Tap.HasWindow, ofTap, eq_comm]
  | scope name size => exact window_eq_ok_iff
  | fft name size => exact window_eq_ok_iff

theorem hasWindow_of_setup {op : Op} {key : Option String} {rate : Float32} {k : Kernel}
    (h : setup op key rate = .ok k) : op.HasWindow := by
  cases op with
  | tap t => exact (setup_tap_iff.1 h).1
  | _ => trivial

theorem setup_reads (op : Op) (key : Option String) (rate : Float32) (k : Kernel)
    (h : setup op key rate = .ok k) : k.reads = op.arity := by
  cases op with
  | delay maxMs =>
    simp only [setup] at h
    split at h
    · cases h; rfl
    · cases h
  | tap t =>
    obtain ⟨-, rfl⟩ := setup_tap_iff.1 h
    cases t <;> rfl
  | _ => cases h; rfl

theorem tick_reads (k : Kernel) (f : Nat → Float32) (rate : Float32) (s : Step)
    (h : k.tick f rate = .ok s) : s.kernel.reads = k.reads := by
  cases k with
  | filter g =>
    simp only [tick] at h
    split at h <;> cases h
    rfl
  | scope name size held =>
    simp only [tick] at h
    split at h <;> cases h <;> rfl
  | fft name size held =>
    simp only [tick] at h
    split at h <;> cases h <;> rfl
  | _ => cases h; rfl

theorem before_reads {rate : Float32} {args : List Samples} {k now : Kernel} {t : Nat}
    (h : k.before rate args t = some now) : now.reads = k.reads := by
  induction t generalizing now with
  | zero => cases h; rfl
  | succ t ih =>
    simp only [before, Option.bind_eq_some_iff, Option.map_eq_some_iff] at h
    obtain ⟨k', hk, s, hs, rfl⟩ := h
    simp only [stepAt, Option.bind_eq_bind, Option.bind_eq_some_iff, Except.toOption] at hs
    obtain ⟨xs, -, hs⟩ := hs
    split at hs
    · next ht =>
      cases hs
      rw [← ih hk, tick_reads _ _ _ _ ht]
    · cases hs

theorem tick_error (k : Kernel) (f : Nat → Float32) (rate : Float32) (e : KernelFault)
    (h : k.tick f rate = .error e) : e = .emptyCutoffRange := by
  cases k with
  | filter g =>
    simp only [tick] at h
    split at h
    · cases h
    · next h' =>
      cases h
      simp only [Filter.setCutoff, Filter.clampCutoff] at h'
      split at h'
      · split at h' <;> cases h'
        rfl
      · cases h'
  | scope name size held =>
    simp only [tick] at h
    split at h <;> cases h
  | fft name size held =>
    simp only [tick] at h
    split at h <;> cases h
  | _ => cases h

/-- All of a kernel that can be heard: the extremes that a meter has seen are left out. -/
def voice : Kernel → Kernel
  | meter name _ => meter name .empty
  | k => k

theorem voice_cases (k k' : Kernel) (h : k.voice = k'.voice) :
    k = k' ∨ ∃ name x y, k = meter name x ∧ k' = meter name y := by
  cases k <;> cases k' <;> simp_all [voice]

theorem endBlock_voice (k : Kernel) : k.endBlock.1.voice = k.voice := by
  cases k with
  | meter name x => simp only [endBlock]; split <;> rfl
  | _ => rfl

/-- What can be heard of a step depends on what can be heard of the kernel. -/
theorem tick_voice (k k' : Kernel) (h : k.voice = k'.voice) (f : Nat → Float32)
    (rate : Float32) :
    (k.tick f rate).map (fun s => (s.value, s.kernel.voice)) =
      (k'.tick f rate).map fun s => (s.value, s.kernel.voice) := by
  rcases voice_cases k k' h with rfl | ⟨name, x, y, rfl, rfl⟩ <;> rfl

end Kernel

end Patchbay
