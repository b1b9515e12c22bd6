import Mathlib
import Patchbay.Proofs.Likeness
import Patchbay.Proofs.Recall
import Patchbay.Proofs.Session

/-!
# How late an echo comes

A delay reads before it writes, and its line is one sample longer than the longest delay in whole
samples. So a time of whole samples is heard that many frames late as long as it does not go beyond
the longest one, and a time beyond it is cut off only one frame later.
-/

set_option autoImplicit false

namespace Patchbay

open Patchbay.Expr

variable {rate maxMs : Float32} {n : Nat}

/-- A stream that goes on for ever. -/
def Samples.of (x : Nat → Float32) : Samples := fun t => some (x t)

/-- The sample of some frames before a frame, silence before the first one. -/
def ago (w : Nat → Float32) (t lag : Nat) : Float32 := if lag ≤ t then w (t - lag) else 0.0

/-- What is heard of an input through a line of `n` samples that is read `lag` frames late. The line
is written with the input and what is fed back of the sound. The sample beside the one that is heard
has some weight; beside the last of the line the newest one comes round. -/
def Echo (n lag : Nat) (weight feedback : Float32) (x y : Nat → Float32) : Prop :=
  ∃ w : Nat → Float32, ∀ t, w t = flushDenormal (x t + feedback * y t) ∧
    y t = ago w t lag + (ago w t (lag % n + 1) - ago w t lag) * weight

namespace DelayLine

/-- What has been written before a frame, the newest first. -/
def writes (n : Nat) (distance feedback input : Nat → Float32) : Nat → List Float32
  | 0 => []
  | t + 1 =>
    let past := writes n distance feedback input t
    flushDenormal (input t + feedback t * recalled n past (distance t)) :: past

theorem writes_getD {n : Nat} {distance feedback input w : Nat → Float32}
    (hw : ∀ t, w t = flushDenormal (input t +
      feedback t * recalled n (writes n distance feedback input t) (distance t))) (t k : Nat) :
    (writes n distance feedback input t).getD k 0.0 = ago w t (k + 1) := by
  induction t generalizing k with
  | zero => rfl
  | succ t ih =>
    rw [writes, ← hw t]
    cases k with
    | zero => rfl
    | succ k =>
      rw [List.getD_cons_succ, ih k, ago, ago]
      simp only [Nat.add_le_add_iff_right, Nat.add_sub_add_right]

theorem ofTime_eq {seconds : Float32} (h : samplesFor rate seconds = n) (hpos : 0 < n)
    (hroom : HasRoom n) : ∃ d, ofTime rate seconds = .ok d ∧ d.capacity = n ∧ d.Recalls [] := by
  subst h
  obtain ⟨d, hd⟩ : ∃ d, new (samplesFor rate seconds) = .ok d := ⟨_, new_eq hpos hroom⟩
  exact ⟨d, hd, capacity_new hd, recalls_new hd⟩

end DelayLine

open DelayLine

namespace Kernel

/-- The line holds what has been written so far. -/
theorem before_delay {d : DelayLine} (h : d.Recalls []) (hsized : d.Sized)
    (time feedback input : Nat → Float32) (t : Nat) :
    ∃ now, (delay d).before rate [.of time, .of feedback, .of input] t = some (delay now) ∧
      now.capacity = d.capacity ∧ now.Recalls
        (writes d.capacity (fun t => delayDistance (time t) rate) feedback input t) := by
  induction t with
  | zero => exact ⟨d, rfl, rfl, h⟩
  | succ t ih =>
    obtain ⟨now, hnow, hcapacity, hrecalls⟩ := ih
    have hread := read_eq hrecalls (sized_of_capacity hsized hcapacity) (delayDistance (time t) rate)
    rw [hcapacity] at hread
    refine ⟨now.write (flushDenormal (input t +
      feedback t * now.read (delayDistance (time t) rate))), ?_, ?_, ?_⟩
    · rw [before, hnow]
      rfl
    · rw [capacity_write, hcapacity]
    · rw [hread]
      exact hrecalls.write _

theorem samples_delay {d : DelayLine} (h : d.Recalls []) (hsized : d.Sized)
    (time feedback input : Nat → Float32) :
    (delay d).samples rate [.of time, .of feedback, .of input] =
      .of fun t => recalled d.capacity
        (writes d.capacity (fun t => delayDistance (time t) rate) feedback input t)
        (delayDistance (time t) rate) := by
  funext t
  obtain ⟨now, hnow, hcapacity, hrecalls⟩ := before_delay h hsized time feedback input t
  have hread := read_eq hrecalls (sized_of_capacity hsized hcapacity) (delayDistance (time t) rate)
  rw [hcapacity] at hread
  rw [samples, hnow, Samples.of, ← hread]
  rfl

/-- Times that are cut off alike sound alike, on every input. -/
theorem samples_delay_congr (d : DelayLine) {time time' : Float32}
    (h : clampDelay d.capacity (delayDistance time rate) =
      clampDelay d.capacity (delayDistance time' rate)) (feedback input : Samples) :
    (delay d).samples rate [fun _ => some time, feedback, input] =
      (delay d).samples rate [fun _ => some time', feedback, input] := by
  have hsame (now : DelayLine) (hnow : now.capacity = d.capacity) :
      now.read (delayDistance time rate) = now.read (delayDistance time' rate) := by
    simp only [DelayLine.read, hnow, h]
  refine samples_congr (fun k => ∃ now, k = delay now ∧ now.capacity = d.capacity) ⟨d, rfl, rfl⟩
    ?_ ?_
  · rintro _ t ⟨now, rfl, hnow⟩
    simp only [stepAt, List.mapM_cons, List.mapM_nil, Option.pure_def, Option.bind_eq_bind,
      Option.bind_some]
    cases feedback t with
    | none => rfl
    | some f =>
      cases input t with
      | none => rfl
      | some x =>
        simp only [Option.bind_some, tick, List.getD_cons_zero, hsame now hnow]
        rfl
  · rintro _ t s ⟨now, rfl, hnow⟩ hs
    obtain ⟨xs, -, hs⟩ := Option.bind_eq_some_iff.1 hs
    cases hs
    exact ⟨_, rfl, by rw [capacity_write, hnow]⟩

end Kernel

open Kernel (delayDistance)

/-- A delay node over its time, its feedback and a stream. -/
def delayed (rate maxMs : Float32) (held : Settings) (key : Option String)
    (time feedback : Float32) (input : Samples) : Samples :=
  nodeStream rate held (.delay maxMs) key [fun _ => some time, fun _ => some feedback, input]

theorem delayed_eq (h : samplesFor rate (maxMs / 1000.0) = n) (hpos : 0 < n) (hroom : HasRoom n)
    (held : Settings) (key : Option String) :
    ∃ d : DelayLine, d.capacity = n ∧ d.Recalls [] ∧ ∀ time feedback input,
      delayed rate maxMs held key time feedback input =
        (Kernel.delay d).samples rate [fun _ => some time, fun _ => some feedback, input] := by
  obtain ⟨d, hd, hcapacity, hrecalls⟩ := ofTime_eq h hpos hroom
  refine ⟨d, hcapacity, hrecalls, fun time feedback input => ?_⟩
  simp only [delayed, nodeStream, Kernel.setup, hd]
  rfl

/-- A time is heard one frame later than the distance it is cut off to. -/
theorem delayed_echo_of_short (h : samplesFor rate (maxMs / 1000.0) = n) (hpos : 0 < n)
    (hroom : HasRoom n) (hshort : Rounding.Short (n - 1)) (held : Settings)
    (key : Option String) {time c : Float32} (htime : clampDelay n (delayDistance time rate) = c)
    (feedback : Float32) (x : Nat → Float32) :
    ∃ y, delayed rate maxMs held key time feedback (.of x) = .of y ∧
      Echo n (Single.toNat c + 1) (c - Single.ofNat (Single.toNat c)) feedback x y := by
  subst htime
  obtain ⟨d, rfl, hrecalls, heq⟩ := delayed_eq h hpos hroom held key
  obtain ⟨y, hy, hsamples⟩ : ∃ y : Nat → Float32, (∀ t, y t = recalled d.capacity
      (writes d.capacity (fun _ => delayDistance time rate) (fun _ => feedback) x t)
      (delayDistance time rate)) ∧
      delayed rate maxMs held key time feedback (.of x) = .of y :=
    ⟨_, fun _ => rfl, (heq time feedback (.of x)).trans
      (Kernel.samples_delay hrecalls ⟨hroom, hshort⟩ (fun _ => time) (fun _ => feedback) x)⟩
  have hpast (t k : Nat) : (writes d.capacity (fun _ => delayDistance time rate)
      (fun _ => feedback) x t).getD k 0.0 =
      ago (fun t => flushDenormal (x t + feedback * y t)) t (k + 1) :=
    writes_getD (fun t => by rw [hy]) t k
  refine ⟨y, hsamples, _, fun t => ⟨rfl, ?_⟩⟩
  simp only [hy t, recalled, hpast]

theorem delayed_echo (h : samplesFor rate (maxMs / 1000.0) = n) (hpos : 0 < n)
    (hsize : n ≤ 2 ^ 24) (held : Settings) (key : Option String) {time c : Float32}
    (htime : clampDelay n (delayDistance time rate) = c) (feedback : Float32)
    (x : Nat → Float32) :
    ∃ y, delayed rate maxMs held key time feedback (.of x) = .of y ∧
      Echo n (Single.toNat c + 1) (c - Single.ofNat (Single.toNat c)) feedback x y :=
  delayed_echo_of_short h hpos (hasRoom_of_le hsize) (Rounding.short_of_lt (by omega)) held key htime
    feedback x

/-- A whole distance leaves no weight to the sample beside it. -/
theorem delayed_whole_of_short (h : samplesFor rate (maxMs / 1000.0) = n)
    (hroom : HasRoom n) (hshort : Rounding.Short (n - 1)) (held : Settings)
    (key : Option String) {time : Float32} {k : Nat} (hk : k < n) (hwhole : k < 2 ^ 24)
    (htime : clampDelay n (delayDistance time rate) = Single.ofNat k) (feedback : Float32)
    (x : Nat → Float32) :
    ∃ y, delayed rate maxMs held key time feedback (.of x) = .of y ∧
      Echo n (k + 1) 0.0 feedback x y := by
  have hback : Single.toNat (Single.ofNat k) = k :=
    Single.toNat_ofNat (by omega) (Rounding.short_of_lt hwhole)
  have hrest : Single.ofNat k - Single.ofNat k = 0.0 := by
    rw [Single.sub_ofNat le_rfl hwhole, Nat.sub_self]
    rfl
  have := delayed_echo_of_short h (by omega) hroom hshort held key htime feedback x
  rwa [hback, hrest] at this

theorem delayed_whole (h : samplesFor rate (maxMs / 1000.0) = n) (hsize : n ≤ 2 ^ 24)
    (held : Settings) (key : Option String) {time : Float32} {k : Nat} (hk : k < n)
    (htime : clampDelay n (delayDistance time rate) = Single.ofNat k) (feedback : Float32)
    (x : Nat → Float32) :
    ∃ y, delayed rate maxMs held key time feedback (.of x) = .of y ∧
      Echo n (k + 1) 0.0 feedback x y :=
  delayed_whole_of_short h (hasRoom_of_le hsize) (Rounding.short_of_lt (by omega)) held key hk
    (by omega) htime feedback x

/-- A time of whole samples asks for a distance of one sample less. -/
theorem delayDistance_ofNat {time : Float32} {lag : Nat} (hpos : 1 ≤ lag) (hlag : lag < 2 ^ 24)
    (h : msToSamples time rate = Single.ofNat lag) :
    delayDistance time rate = Single.ofNat (lag - 1) := by
  have hone : (1.0 : Float32) = Single.ofNat 1 := by decide
  rw [delayDistance, h, hone, Single.sub_ofNat hpos hlag, Single.max_ofNat_zero (by omega)]

/-- An expression delayed by constants. -/
def Expr.delayedBy (maxMs time feedback : Float32) (labels : Label × Label × Label)
    (input : Expr) : Expr :=
  .node labels.1 (.delay maxMs) none
    [.node labels.2.1 (.const time) none [], .node labels.2.2 (.const feedback) none [], input]

theorem stream_delayedBy (held : Settings) (time feedback : Float32)
    (labels : Label × Label × Label) (input : Expr) :
    (delayedBy maxMs time feedback labels input).stream rate held =
      delayed rate maxMs held none time feedback (input.stream rate held) := by
  rw [delayedBy, stream]
  rfl

theorem mem_under_delayedBy (time feedback : Float32) (labels : Label × Label × Label)
    (input e : Expr) : e ∈ under [delayedBy maxMs time feedback labels input,
        delayedBy maxMs time feedback labels input] ↔
      e = delayedBy maxMs time feedback labels input ∨
        e = .node labels.2.1 (.const time) none [] ∨
        e = .node labels.2.2 (.const feedback) none [] ∨ e ∈ parts input := by
  show e ∈ partsAll _ ↔ _
  simp only [mem_partsAll, List.mem_cons, List.not_mem_nil, or_false, or_self, exists_eq_left]
  simp [delayedBy, parts, partsAll]

/-- Where two delays sound alike, what is heard of one is heard of the other. -/
theorem play_delayedBy {time time' feedback : Float32} {labels labels' : Label × Label × Label}
    {input : Expr} {r s s' : Renderer}
    (hsame : ∀ held samples, delayed r.sampleRate maxMs held none time feedback samples =
      delayed r.sampleRate maxMs held none time' feedback samples)
    (hs : Coherent (under [delayedBy maxMs time feedback labels input,
      delayedBy maxMs time feedback labels input]))
    (hs' : Coherent (under [delayedBy maxMs time' feedback labels' input,
      delayedBy maxMs time' feedback labels' input]))
    (h : r.load (delayedBy maxMs time feedback labels input)
      (delayedBy maxMs time feedback labels input) = .ok s)
    (h' : r.load (delayedBy maxMs time' feedback labels' input)
      (delayedBy maxMs time' feedback labels' input) = .ok s')
    {calls : List Call} {out : Stereo} (hp : s.play calls = .ok out) :
    s'.play calls = .ok out := by
  have hgo := (play_ok_iff hs h calls).1 ⟨out, hp⟩
  have hroot (held : Settings) :
      (delayedBy maxMs time' feedback labels' input).stream r.sampleRate held =
        (delayedBy maxMs time feedback labels input).stream r.sampleRate held := by
    rw [stream_delayedBy, stream_delayedBy, hsame]
  obtain ⟨out', hp'⟩ := (play_ok_iff hs' h' calls).2 fun e he t ht => by
    rcases (mem_under_delayedBy ..).1 he with rfl | rfl | rfl | he
    · exact hroot _ ▸ hgo _ ((mem_under_delayedBy ..).2 (.inl rfl)) t ht
    · rfl
    · rfl
    · exact hgo e ((mem_under_delayedBy ..).2 (.inr (.inr (.inr he)))) t ht
  have hears := play_hears hs h hp
  have hears' := play_hears hs' h' hp'
  rw [hp', hears_unique hears hears' (fun t => congrFun (hroot _) t) fun t => congrFun (hroot _) t]

/-- No time is heard later than one frame beyond the longest one. All times that go beyond by a
frame or more are heard just then, so they sound alike in every expression and every run. A time of
whole samples up to the longest one is heard as many frames late. -/
theorem delay_cut_off {longest : Nat} (whole : samplesFor rate (maxMs / 1000.0) = longest + 1)
    (pos : 1 ≤ longest) (short : longest < 2 ^ 24) :
    (∀ time held key feedback x, ∃ y lag weight, 1 ≤ lag ∧ lag ≤ longest + 1 ∧
      delayed rate maxMs held key time feedback (.of x) = .of y ∧
      Echo (longest + 1) lag weight feedback x y) ∧
    (∀ time, Single.ofNat longest ≤ delayDistance time rate → ∀ held key feedback x,
      ∃ y, delayed rate maxMs held key time feedback (.of x) = .of y ∧
        Echo (longest + 1) (longest + 1) 0.0 feedback x y) ∧
    (∀ time time', Single.ofNat longest ≤ delayDistance time rate →
      Single.ofNat longest ≤ delayDistance time' rate →
      (∀ held key feedback input, delayed rate maxMs held key time feedback input =
        delayed rate maxMs held key time' feedback input) ∧
      ∀ feedback input labels (r s s' : Renderer) calls, r.sampleRate = rate →
        Coherent (under [delayedBy maxMs time feedback labels input,
          delayedBy maxMs time feedback labels input]) →
        Coherent (under [delayedBy maxMs time' feedback labels input,
          delayedBy maxMs time' feedback labels input]) →
        r.load (delayedBy maxMs time feedback labels input)
          (delayedBy maxMs time feedback labels input) = .ok s →
        r.load (delayedBy maxMs time' feedback labels input)
          (delayedBy maxMs time' feedback labels input) = .ok s' →
        s'.play calls = s.play calls) ∧
    ∀ lag time, 1 ≤ lag → lag ≤ longest → msToSamples time rate = Single.ofNat lag →
      ∀ held key feedback x, ∃ y, delayed rate maxMs held key time feedback (.of x) = .of y ∧
        Echo (longest + 1) lag 0.0 feedback x y := by
  have hbeyond (time : Float32) (h : Single.ofNat longest ≤ delayDistance time rate) :
      clampDelay (longest + 1) (delayDistance time rate) = Single.ofNat longest :=
    clampDelay_beyond (n := longest + 1) (by omega) (by omega) h
  have hsame {time time' : Float32} (h : Single.ofNat longest ≤ delayDistance time rate)
      (h' : Single.ofNat longest ≤ delayDistance time' rate) (held : Settings)
      (key : Option String) (feedback : Float32) (input : Samples) :
      delayed rate maxMs held key time feedback input =
        delayed rate maxMs held key time' feedback input := by
    obtain ⟨d, hd, -, heq⟩ := delayed_eq whole (by omega) (hasRoom_of_le (by omega)) held key
    rw [heq, heq]
    exact Kernel.samples_delay_congr d (by rw [hd, hbeyond time h, hbeyond time' h']) _ _
  refine ⟨fun time held key feedback x => ?_,
    fun time h held key => delayed_whole whole (by omega) held key (by omega) (hbeyond time h),
    fun time time' h h' => ⟨fun held key => hsame h h' held key, ?_⟩,
    fun lag time hlag hle h held key => ?_⟩
  · obtain ⟨y, hy, hecho⟩ := delayed_echo whole (by omega) (by omega) held key rfl feedback x
    exact ⟨y, _, _, Nat.le_add_left 1 _, toNat_clampDelay_lt (by omega) (by omega) _, hy, hecho⟩
  · rintro feedback input labels r s s' calls rfl hs hs' hr hr'
    cases hp : s.play calls with
    | ok out =>
      exact play_delayedBy (fun held samples => hsame h h' held none feedback samples) hs hs' hr hr' hp
    | error f =>
      cases hp' : s'.play calls with
      | ok out =>
        rw [play_delayedBy (fun held samples => hsame h' h held none feedback samples) hs' hs hr' hr
          hp'] at hp
        cases hp
      | error f' => rw [play_error hp, play_error hp']
  · have hclamp : clampDelay (longest + 1) (delayDistance time rate) = Single.ofNat (lag - 1) := by
      rw [delayDistance_ofNat hlag (by omega) h]
      exact clampDelay_ofNat (by omega) (by omega)
    have := delayed_whole whole (by omega) held key (by omega) hclamp
    rwa [Nat.sub_add_cancel hlag] at this

/-- A line for ten milliseconds at a thousand frames a second. A time of ten is heard ten frames
late; twenty and thirty are cut off alike. -/
theorem delay_cut_off_ten :
    (∃ y, delayed 1000.0 10.0 quiet none 10.0 0.5 (.of fun _ => 1.0) = .of y ∧
      Echo 11 10 0.0 0.5 (fun _ => 1.0) y) ∧
    (∃ y, delayed 1000.0 10.0 quiet none 20.0 0.5 (.of fun _ => 1.0) = .of y ∧
      Echo 11 11 0.0 0.5 (fun _ => 1.0) y) ∧
    delayed 1000.0 10.0 quiet none 20.0 0.5 (.of fun _ => 1.0) =
      delayed 1000.0 10.0 quiet none 30.0 0.5 (.of fun _ => 1.0) := by
  obtain ⟨-, hbeyond, hsame, hwithin⟩ :=
    @delay_cut_off 1000.0 10.0 10 (by decide) (by decide) (by decide)
  exact ⟨hwithin 10 10.0 (by decide) (by decide) (by decide) quiet none 0.5 fun _ => 1.0,
    hbeyond 20.0 (by decide) quiet none 0.5 fun _ => 1.0,
    (hsame 20.0 30.0 (by decide) (by decide)).1 quiet none 0.5 (.of fun _ => 1.0)⟩

/-- A time beyond the longest one is heard one frame after it. -/
theorem delay_cut_off_late : samplesFor 1000.0 (10.0 / 1000.0) = 11 ∧
    msToSamples 10.0 1000.0 = 10.0 ∧ (10.0 : Float32) ≤ 20.0 ∧
    delayed 1000.0 10.0 quiet none 10.0 0.0 (.of fun _ => 1.0) 10 = some 1.0 ∧
    delayed 1000.0 10.0 quiet none 20.0 0.0 (.of fun _ => 1.0) 10 = some 0.0 ∧
    delayed 1000.0 10.0 quiet none 20.0 0.0 (.of fun _ => 1.0) 11 = some 1.0 := by
  decide +kernel

end Patchbay
