import Mathlib
import Patchbay.Proofs.MeterReport

/-!
# Window taps

Scopes and spectra report windows of samples. Before every frame such a tap holds the samples it has
taken in since the last window was full, and it raises an event at every frame that fills one. Who
listens makes no difference to what it holds.
-/

set_option autoImplicit false

namespace Patchbay

open Patchbay.Expr

variable {rate : Float32} {held : Settings} {current : String → Option Float32}
variable {left right : Expr} {t : Nat}

/-- A tap with a window: its kernel with some samples in the window, and what it reports of a full
one under its name. -/
structure WindowTap where
  tag : ProbeTag
  size : Nat
  kernel : Array Float32 → Kernel
  event : String → List Float32 → ProbeEvent

namespace WindowTap

def raised (w : WindowTap) (samples : List Float32) : Raised :=
  ⟨w.tag, fun name => w.event name samples⟩

/-- The frames before `t` since the last window was full. -/
def begun (w : WindowTap) (t : Nat) : List Nat := List.range' (t / w.size * w.size) (t % w.size)

/-- Whether a window is full after frame `t`. -/
def Full (w : WindowTap) (t : Nat) : Prop := (t + 1) % w.size = 0

instance (w : WindowTap) (t : Nat) : Decidable (w.Full t) := inferInstanceAs (Decidable (_ = _))

/-- The frames of a window with `t` as the last. -/
def ending (w : WindowTap) (t : Nat) : List Nat := List.range' (t + 1 - w.size) w.size

variable {w : WindowTap}

theorem length_begun (hpos : 0 < w.size) (t : Nat) : (w.begun t).length < w.size := by
  rw [begun, List.length_range']
  exact Nat.mod_lt t hpos

theorem full_iff (hpos : 0 < w.size) (t : Nat) : w.Full t ↔ t % w.size + 1 = w.size := by
  refine ⟨fun h => ?_, fun h => (block_end h).1⟩
  by_contra hne
  have hlt := Nat.mod_lt t hpos
  rw [Full, (block_inside (by omega : t % w.size + 1 < w.size)).1] at h
  omega

theorem begun_concat (w : WindowTap) (t : Nat) :
    w.begun t ++ [t] = List.range' (t / w.size * w.size) (t % w.size + 1) := by
  rw [begun, List.range'_concat, Nat.one_mul, Nat.div_add_mod']

/-- The frame that fills a window is the last one in it, and the next window is empty. -/
theorem begun_full (hpos : 0 < w.size) (h : w.Full t) :
    w.begun t ++ [t] = w.ending t ∧ w.begun (t + 1) = [] := by
  have hlast := (full_iff hpos t).1 h
  have hstart : t / w.size * w.size = t + 1 - w.size := by
    have := Nat.div_add_mod' t w.size
    omega
  refine ⟨by rw [begun_concat, hlast, hstart, ending], ?_⟩
  rw [begun, show (t + 1) % w.size = 0 from h]
  rfl

theorem begun_part (hpos : 0 < w.size) (h : ¬ w.Full t) : w.begun (t + 1) = w.begun t ++ [t] := by
  rw [full_iff hpos] at h
  have hlt := Nat.mod_lt t hpos
  obtain ⟨hmod, hdiv⟩ := block_inside (by omega : t % w.size + 1 < w.size)
  rw [begun_concat, begun, hmod, hdiv]

end WindowTap

/-- A scope reports the samples themselves, a spectrum their magnitudes under a Hann window. -/
def Op.windowTap? : Op → Option WindowTap
  | .tap (.scope name size) => some ⟨⟨.scope, name⟩, size, .scope name size, .scope⟩
  | .tap (.fft name size) => some ⟨⟨.fft, name⟩, size, .fft name size,
      fun name samples => .fft name (Spectrum.magnitudes size samples .hann)⟩
  | _ => none

theorem windowTap_cases {op : Op} {w : WindowTap} (h : op.windowTap? = some w) :
    (∃ name size, op = .tap (.scope name size) ∧
      w = ⟨⟨.scope, name⟩, size, .scope name size, .scope⟩) ∨
    ∃ name size, op = .tap (.fft name size) ∧ w = ⟨⟨.fft, name⟩, size, .fft name size,
      fun name samples => .fft name (Spectrum.magnitudes size samples .hann)⟩ := by
  rw [Op.windowTap?.eq_def] at h
  split at h
  · cases h
    exact .inl ⟨_, _, rfl, rfl⟩
  · cases h
    exact .inr ⟨_, _, rfl, rfl⟩
  · cases h

namespace Kernel

/-- A kernel without a window. -/
def Windowless (k : Kernel) : Prop :=
  ∀ name size held, k ≠ scope name size held ∧ k ≠ fft name size held

/-- The kernel of a node before frame `t`. If the node has a window, what it has taken in since the
last full one is in it. -/
def Gathers (rate : Float32) (held : Settings) (t : Nat) (e : Expr) (k : Kernel) : Prop :=
  match e.op.windowTap? with
  | some w => 0 < w.size ∧ k = w.kernel (intake rate held (w.begun t) e).toArray
  | none => k.Windowless

/-- What a node raises at frame `t`. -/
def raisedAt (rate : Float32) (held : Settings) (t : Nat) (e : Expr) : Option Raised :=
  e.op.windowTap?.bind fun w =>
    if w.Full t then some (w.raised (intake rate held (w.ending t) e)) else none

theorem setup_gathers {e : Expr} {k : Kernel} (h : setup e.op e.key rate = .ok k) :
    k.Gathers rate held 0 e := by
  obtain ⟨l, op, key, cs⟩ := e
  rw [Gathers.eq_def]
  simp only [Expr.op, Expr.key] at h ⊢
  cases op with
  | delay maxMs =>
    rw [setup] at h
    split at h
    · cases h
      simp [Op.windowTap?, Windowless]
    · cases h
  | tap t =>
    obtain ⟨hwindow, rfl⟩ := setup_tap_iff.1 h
    cases t with
    | meter name => simp [Op.windowTap?, Windowless, ofTap]
    | scope name size =>
      refine ⟨hwindow.1, ?_⟩
      rw [WindowTap.begun, Nat.zero_mod]
      rfl
    | fft name size =>
      refine ⟨hwindow.1, ?_⟩
      rw [WindowTap.begun, Nat.zero_mod]
      rfl
  | _ =>
    cases h
    simp [Op.windowTap?, Windowless]

theorem windowTap_tick {op : Op} {w : WindowTap} (h : op.windowTap? = some w) (held : Array Float32)
    (arg : Nat → Float32) :
    (w.kernel held).tick arg rate = .ok (
      if w.size ≤ (held.push (arg 0)).size then
        ⟨arg 0, w.kernel #[], some (w.raised (held.push (arg 0)).toList)⟩
      else ⟨arg 0, w.kernel (held.push (arg 0)), none⟩) := by
  obtain ⟨name, size, rfl, rfl⟩ | ⟨name, size, rfl, rfl⟩ := windowTap_cases h
  · rw [tick]
    split <;> rfl
  · rw [tick]
    split <;> rfl

theorem Windowless.tick {k : Kernel} (h : k.Windowless) {arg : Nat → Float32} {s : Step}
    (hs : k.tick arg rate = .ok s) : s.kernel.Windowless ∧ s.raised = none := by
  cases k with
  | filter f =>
    rw [Kernel.tick] at hs
    split at hs
    · cases hs
      simp [Windowless]
    · cases hs
  | scope name size held => exact absurd rfl (h name size held).1
  | fft name size held => exact absurd rfl (h name size held).2
  | _ =>
    cases hs
    simp [Windowless]

theorem windowTap_arity {op : Op} {w : WindowTap} (h : op.windowTap? = some w) : op.arity = 1 := by
  obtain ⟨name, size, rfl, -⟩ | ⟨name, size, rfl, -⟩ := windowTap_cases h <;> rfl

theorem windowTap_kind {op : Op} {w : WindowTap} (h : op.windowTap? = some w) :
    w.tag.kind ≠ .meter := by
  obtain ⟨name, size, -, rfl⟩ | ⟨name, size, -, rfl⟩ := windowTap_cases h <;> simp

/-- One frame of a node: what it takes in goes into its window, and a full window is reported. -/
theorem tick_gathers {e : Expr} {k : Kernel} (h : k.Gathers rate held t e) {arg : Nat → Float32}
    (ha : Fed rate held t e arg) {s : Step} (hs : k.tick arg rate = .ok s) :
    s.kernel.Gathers rate held (t + 1) e ∧ s.raised = raisedAt rate held t e := by
  rw [Gathers.eq_def, raisedAt] at *
  cases hw : e.op.windowTap? with
  | none =>
    rw [hw] at h
    exact Windowless.tick h hs
  | some w =>
    rw [hw] at h
    obtain ⟨hpos, rfl⟩ := h
    have harg := ha 0 (by rw [windowTap_arity hw]; exact Nat.one_pos)
    rw [windowTap_tick hw, List.push_toArray, ← intake_concat harg] at hs
    have hsize : (intake rate held (w.begun t ++ [t]) e).toArray.size = t % w.size + 1 := by
      rw [WindowTap.begun_concat, List.size_toArray, intake, List.length_map, List.length_range']
    -- the sample fills the window, which is then reported and left empty, or it does not
    by_cases hfull : w.Full t
    · obtain ⟨hending, hnext⟩ := WindowTap.begun_full hpos hfull
      rw [hsize, if_pos ((WindowTap.full_iff hpos t).1 hfull).ge, hending] at hs
      cases hs
      refine ⟨⟨hpos, ?_⟩, ?_⟩
      · rw [hnext]
        rfl
      · rw [Option.bind_some, if_pos hfull]
    · have hlt := Nat.mod_lt t hpos
      have hnot := (WindowTap.full_iff hpos t).not.1 hfull
      rw [hsize, if_neg (by omega)] at hs
      cases hs
      refine ⟨⟨hpos, ?_⟩, ?_⟩
      · rw [WindowTap.begun_part hpos hfull]
      · rw [Option.bind_some, if_neg hfull]

theorem windowTap_still {op : Op} {w : WindowTap} (h : op.windowTap? = some w)
    (held : Array Float32) (value : Float32) :
    (w.kernel held).setConst value = w.kernel held ∧
      (w.kernel held).endBlock.1 = w.kernel held := by
  obtain ⟨name, size, -, rfl⟩ | ⟨name, size, -, rfl⟩ := windowTap_cases h <;> exact ⟨rfl, rfl⟩

theorem Windowless.still {k : Kernel} (h : k.Windowless) (value : Float32) :
    (k.setConst value).Windowless ∧ k.endBlock.1.Windowless := by
  cases k with
  | scope name size held => exact absurd rfl (h name size held).1
  | fft name size held => exact absurd rfl (h name size held).2
  | meter name x =>
    refine ⟨h, ?_⟩
    rw [endBlock]
    split
    · exact h
    · simp [Windowless]
  | _ => simp [Windowless, setConst, endBlock]

/-- Neither a value that is set nor the end of a block touches a window. -/
theorem still_gathers {e : Expr} {k : Kernel} (h : k.Gathers rate held t e) (value : Float32) :
    (k.setConst value).Gathers rate held t e ∧ k.endBlock.1.Gathers rate held t e := by
  rw [Gathers.eq_def] at h ⊢
  rw [Gathers.eq_def]
  cases hw : e.op.windowTap? with
  | none =>
    rw [hw] at h
    exact Windowless.still h value
  | some w =>
    rw [hw] at h
    obtain ⟨hpos, rfl⟩ := h
    obtain ⟨hset, hend⟩ := windowTap_still hw (intake rate held (w.begun t) e).toArray value
    exact ⟨⟨hpos, hset⟩, hpos, hend⟩

theorem windowTap_holds {op : Op} {w : WindowTap} (h : op.windowTap? = some w)
    {held : Array Float32} {name : String} {size : Nat} {samples : Array Float32}
    (hk : w.kernel held = scope name size samples ∨ w.kernel held = fft name size samples) :
    size = w.size ∧ samples = held := by
  obtain ⟨name, size, -, rfl⟩ | ⟨name, size, -, rfl⟩ := windowTap_cases h <;>
    rcases hk with hk | hk <;> cases hk <;> exact ⟨rfl, rfl⟩

/-- Before a frame there is room in every window. -/
theorem Gathers.room {e : Expr} {k : Kernel} (h : k.Gathers rate held t e) {name : String}
    {size : Nat} {samples : Array Float32}
    (hk : k = scope name size samples ∨ k = fft name size samples) : samples.size < size := by
  rw [Gathers.eq_def] at h
  cases hw : e.op.windowTap? with
  | none =>
    rw [hw] at h
    rcases hk with rfl | rfl
    · exact absurd rfl (h name size samples).1
    · exact absurd rfl (h name size samples).2
  | some w =>
    rw [hw] at h
    obtain ⟨hpos, rfl⟩ := h
    obtain ⟨rfl, rfl⟩ := windowTap_holds hw hk
    rw [List.size_toArray, intake, List.length_map]
    exact WindowTap.length_begun hpos t

/-- What is raised at the end of a block comes from meters. -/
theorem endBlock_meter (k : Kernel) : ∀ r ∈ k.endBlock.2, r.Tagged ∧ r.tag.kind = .meter := by
  cases k with
  | meter name x =>
    rw [endBlock]
    split
    · simp
    · simp [Raised.Tagged, ProbeEvent.tag]
  | _ => simp [endBlock]

end Kernel

/-! ## Programs -/

/-- A kernel before frame `t`, with what its node has taken in since its last window. -/
structure Gathering (rate : Float32) (held : Settings) (current : String → Option Float32) (t : Nat)
    (e : Expr) (k : Kernel) : Prop where
  runs : Runs rate held current t e k
  gathers : k.Gathers rate held t e

theorem filterMap_eq_flatMap {α β : Type} {f : α → Option β} {xs : List α} {ys : List (Option β)}
    (h : List.Forall₂ (fun x y => y = f x) xs ys) : ys.flatMap Option.toList = xs.filterMap f := by
  induction h with
  | nil => rfl
  | @cons x y xs ys hy hrest ih =>
    subst hy
    rw [List.flatMap_cons, List.filterMap_cons, ih]
    cases f x <;> rfl

theorem step_gathering (hs : Coherent (under [left, right])) (hc : held t = current) {p : Program}
    (h : Laid (Gathering rate held current t) rate left right p) {f : Program.Frame}
    (hf : Program.step p.sampleRate p.cells 0 p.values Program.scratch = .ok f) :
    Laid (Gathering rate held current (t + 1)) rate left right
        { p with cells := f.cells, values := f.values } ∧
      f.raised = (nodesOf [left, right]).filterMap (Kernel.raisedAt rate held t) := by
  obtain ⟨hlaid, raised, hraised, heq⟩ := step_laid_fed (P := Kernel.Gathers rate held t)
    (Q := Kernel.Gathers rate held (t + 1)) (S := fun e r => r = Kernel.raisedAt rate held t e)
    hs hc (fun e k arg s hk ha hs => Kernel.tick_gathers hk ha hs)
    (h.imp fun e k hk => ⟨hk.runs, hk.gathers⟩) hf
  exact ⟨hlaid.imp fun e k hk => ⟨hk.1, hk.2⟩, heq.trans (filterMap_eq_flatMap hraised)⟩

theorem endBlock_gathering {p : Program}
    (h : Laid (Gathering rate held current t) rate left right p) :
    Laid (Gathering rate held current t) rate left right p.endBlock.2 :=
  endBlock_laid
    (fun _ _ hk => ⟨runs_endBlock hk.runs, (Kernel.still_gathers hk.gathers 0.0).2⟩) h

theorem setConst_gathering (hs : Coherent (under [left, right])) {p : Program}
    (h : Laid (Gathering rate held current t) rate left right p) (key : String) (value : Float32) :
    Laid (Gathering rate held (Function.update current key (some value)) t) rate left right
      (p.setConst key value) := by
  refine setConst_laid hs (fun e k hk => ⟨runs_set hk.runs key value, ?_⟩) h
  split
  · exact (Kernel.still_gathers hk.gathers value).1
  · exact hk.gathers

theorem endBlock_meters (p : Program) : ∀ r ∈ p.endBlock.1, r.Tagged ∧ r.tag.kind = .meter := by
  intro r hr
  rw [Program.endBlock, List.filterMap_map] at hr
  obtain ⟨c, -, hc⟩ := List.mem_filterMap.1 hr
  exact c.kernel.endBlock_meter r hc

/-! ## What is heard -/

/-- The window taps under some roots that report under a tag. -/
def windowTaps (tag : ProbeTag) (roots : List Expr) : List (Expr × WindowTap) :=
  ((nodesOf roots).filterMap fun e => e.op.windowTap?.map (e, ·)).filter (·.2.tag = tag)

/-- The windows under a tag that frame `t` fills, in the order of the slots. -/
def windowsAt (tag : ProbeTag) (rate : Float32) (held : Settings) (roots : List Expr) (t : Nat) :
    List ProbeEvent :=
  (windowTaps tag roots).filterMap fun (e, w) =>
    if w.Full t then some (w.event tag.name (intake rate held (w.ending t) e)) else none

/-- What is heard of the windows at some frames by someone who is subscribed to the tag a number of
times at each of them. -/
def windowsHeard (tag : ProbeTag) (rate : Float32) (held : Settings) (roots : List Expr)
    (times : Nat → Nat) (frames : List Nat) : List ProbeEvent :=
  frames.flatMap fun t => (windowsAt tag rate held roots t).flatMap (List.replicate (times t))

theorem map_raisedAt (tag : ProbeTag) (roots : List Expr) :
    (((nodesOf roots).filterMap (Kernel.raisedAt rate held t)).filter (·.tag = tag)).map
      (fun r => r.build r.tag.name) = windowsAt tag rate held roots t := by
  rw [windowsAt, windowTaps]
  induction nodesOf roots with
  | nil => rfl
  | cons e nodes ih =>
    rw [List.filterMap_cons, List.filterMap_cons, Kernel.raisedAt]
    cases e.op.windowTap? with
    | none => exact ih
    | some w =>
      by_cases hfull : w.Full t <;> by_cases htag : w.tag = tag
      · simp [hfull, htag, WindowTap.raised, ih]
      · simp [hfull, htag, WindowTap.raised, ih]
      · simp [hfull, htag, ih]
      · simp [hfull, htag, ih]

theorem windowsHeard_append (tag : ProbeTag) (roots : List Expr) (times : Nat → Nat)
    (a b : List Nat) :
    windowsHeard tag rate held roots times (a ++ b) =
      windowsHeard tag rate held roots times a ++ windowsHeard tag rate held roots times b :=
  List.flatMap_append

theorem windowsHeard_congr {tag : ProbeTag} {roots : List Expr} {times times' : Nat → Nat}
    {frames : List Nat} (h : ∀ t ∈ frames, times t = times' t) :
    windowsHeard tag rate held roots times frames =
      windowsHeard tag rate held roots times' frames :=
  List.flatMap_congr fun t ht => by rw [h t ht]

/-- The end of a block is heard of meters only. -/
theorem endBlock_unheard (p : Program) (bus : ProbeBus) (done : List Delivery) :
    (Renderer.route p.endBlock.1 bus done).2.subscriptions = bus.subscriptions ∧
      ∀ listener tag, tag.kind ≠ .meter →
        heardBy listener tag (Renderer.route p.endBlock.1 bus done).1.reverse =
          heardBy listener tag done.reverse := by
  have hroute := Renderer.route_heard (fun e he => (endBlock_meters p e he).1) bus done
  refine ⟨(hroute 0 ⟨.meter, ""⟩).2, fun listener tag kind => ?_⟩
  have hnone : p.endBlock.1.filter (·.tag = tag) = [] := by
    rw [List.filter_eq_nil_iff]
    intro e he htag
    have htag : e.tag = tag := by simpa using htag
    exact kind (htag ▸ (endBlock_meters p e he).2)
  rw [(hroute listener tag).1, hnone, List.flatMap_nil, List.append_nil]

/-- One frame of a run: whoever is subscribed hears the windows that it fills, and at the end of a
block nothing more of them. -/
theorem frame_gathering (hs : Coherent (under [left, right])) (hc : held t = current)
    {blockSize : Nat} {run run' : Renderer.Run}
    (h : Laid (Gathering rate held current t) rate left right run.program)
    (hf : run.frame blockSize = .ok run') :
    Laid (Gathering rate held current (t + 1)) rate left right run'.program ∧
      run'.bus.subscriptions = run.bus.subscriptions ∧
      ∀ listener tag, tag.kind ≠ .meter →
        heardBy listener tag run'.delivered.reverse =
          heardBy listener tag run.delivered.reverse ++
            windowsHeard tag rate held [left, right] (fun _ => run.bus.times listener tag) [t] := by
  obtain ⟨⟨cells, values, constants, taps, l, r, sampleRate⟩, bus, pos, out, delivered⟩ := run
  rw [Renderer.Run.frame] at hf
  split at hf
  · cases hf
  · next cells' values' raised hstep =>
    obtain ⟨hlaid, hraised⟩ := step_gathering hs hc h hstep
    simp only at hraised
    have htagged : ∀ e ∈ raised, e.Tagged := fun e he => (Program.step_raised hstep e he).1
    have hheard (listener : Nat) (tag : ProbeTag) :
        heardBy listener tag (Renderer.route raised bus delivered).1.reverse =
          heardBy listener tag delivered.reverse ++
            windowsHeard tag rate held [left, right] (fun _ => bus.times listener tag) [t] := by
      rw [(Renderer.route_heard htagged bus delivered listener tag).1, windowsHeard,
        List.flatMap_singleton, ← map_raisedAt, ← hraised, List.flatMap_map]
    have hsubs : (Renderer.route raised bus delivered).2.subscriptions = bus.subscriptions :=
      (Renderer.route_heard htagged bus delivered 0 ⟨.scope, ""⟩).2
    -- windows are on their way before the block ends, if it does
    simp only at hf
    split at hf
    · cases hf
      obtain ⟨hsubs', hheard'⟩ := endBlock_unheard
        ⟨cells', values', constants, taps, l, r, sampleRate⟩
        (Renderer.route raised bus delivered).2 (Renderer.route raised bus delivered).1
      exact ⟨endBlock_gathering hlaid, hsubs'.trans hsubs, fun listener tag kind =>
        (hheard' listener tag kind).trans (hheard listener tag)⟩
    · cases hf
      exact ⟨hlaid, hsubs, fun listener tag _ => hheard listener tag⟩

theorem frames_gathering (hs : Coherent (under [left, right])) {blockSize n : Nat}
    (hc : ∀ i < n, held (t + i) = current) {run run' : Renderer.Run}
    (h : Laid (Gathering rate held current t) rate left right run.program)
    (hf : Renderer.Run.frames blockSize n run = .ok run') :
    Laid (Gathering rate held current (t + n)) rate left right run'.program ∧
      run'.bus.subscriptions = run.bus.subscriptions ∧
      ∀ listener tag, tag.kind ≠ .meter →
        heardBy listener tag run'.delivered.reverse =
          heardBy listener tag run.delivered.reverse ++
            windowsHeard tag rate held [left, right] (fun _ => run.bus.times listener tag)
              (List.range' t n) := by
  induction n generalizing t run with
  | zero =>
    cases hf
    exact ⟨h, rfl, fun listener tag _ => (List.append_nil _).symm⟩
  | succ n ih =>
    rw [Renderer.Run.frames] at hf
    split at hf
    · next between hframe =>
      have hnow : held t = current := hc 0 (by omega)
      obtain ⟨hlaid, hsubs, hheard⟩ := frame_gathering hs hnow h hframe
      have hlater : ∀ i < n, held (t + 1 + i) = current := fun i hi => by
        rw [Nat.add_right_comm]
        exact hc (i + 1) (by omega)
      obtain ⟨hlaid', hsubs', hheard'⟩ := ih hlater hlaid hf
      refine ⟨?_, hsubs'.trans hsubs, fun listener tag kind => ?_⟩
      · rw [← Nat.add_assoc, Nat.add_right_comm]
        exact hlaid'
      · have hrange : List.range' t (n + 1) = [t] ++ List.range' (t + 1) n := rfl
        rw [hheard' listener tag kind, hheard listener tag kind,
          ProbeBus.times_of_subscriptions hsubs, List.append_assoc, ← windowsHeard_append, hrange]
    · cases hf

end Patchbay
