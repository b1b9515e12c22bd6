import Mathlib
import Patchbay.Proofs.Gauge
import Patchbay.Proofs.History

/-!
# Meter reports

Whatever calls a host makes for its frames, every meter has seen the frames since the last block
ended, as many as the renderer has counted. So the reports of a meter divide a run: each covers one
block, a flush reports the frames that are left over, and no frame is reported twice or not at all.
-/

set_option autoImplicit false

namespace Patchbay

open Patchbay.Expr

variable {rate : Float32} {held : Settings} {current : String → Option Float32}
variable {left right : Expr} {t B : Nat}
variable {listener : Nat} {tag : ProbeTag} {before : List ProbeEvent}

/-- What a node takes in at some frames. -/
def intake (rate : Float32) (held : Settings) (frames : List Nat) (e : Expr) : List Float32 :=
  frames.map fun t => (argument rate held t e 0).getD 0.0

theorem intake_concat {frames : List Nat} {e : Expr} {x : Float32}
    (h : argument rate held t e 0 = some x) :
    intake rate held (frames ++ [t]) e = intake rate held frames e ++ [x] := by
  rw [intake, List.map_append, List.map_singleton, h, Option.getD_some, intake]

/-- A kernel before frame `t`. If it is a meter, it has seen what its node took in at some
frames. -/
structure Metering (rate : Float32) (held : Settings) (current : String → Option Float32) (t : Nat)
    (frames : List Nat) (e : Expr) (k : Kernel) : Prop where
  runs : Runs rate held current t e k
  gauges : k.Gauges e (.ofSamples (intake rate held frames e))

theorem tick_intake {frames : List Nat} {e : Expr} {k : Kernel}
    (h : k.Gauges e (.ofSamples (intake rate held frames e))) {arg : Nat → Float32}
    (ha : Fed rate held t e arg) {step : Kernel.Step} (hs : k.tick arg rate = .ok step) :
    step.kernel.Gauges e (.ofSamples (intake rate held (frames ++ [t]) e)) := by
  have htick := Kernel.tick_gauges h hs
  by_cases hmeter : ∃ name, e.op = .tap (.meter name)
  · obtain ⟨name, hname⟩ := hmeter
    have harg : argument rate held t e 0 = some (arg 0) := ha 0 (by rw [hname]; exact Nat.one_pos)
    rwa [intake_concat harg, Extremes.ofSamples_concat]
  · rw [Kernel.Gauges.eq_def] at htick ⊢
    split at htick
    · next name hname => exact absurd ⟨name, hname⟩ hmeter
    · exact htick

theorem step_metering (hs : Coherent (under [left, right])) (hc : held t = current)
    {frames : List Nat} {p : Program}
    (h : Laid (Metering rate held current t frames) rate left right p) {f : Program.Frame}
    (hf : Program.step p.sampleRate p.cells 0 p.values Program.scratch = .ok f) :
    Laid (Metering rate held current (t + 1) (frames ++ [t])) rate left right
      { p with cells := f.cells, values := f.values } := by
  have hP (e : Expr) (k : Kernel) (arg : Nat → Float32) (s : Kernel.Step)
      (hk : k.Gauges e (.ofSamples (intake rate held frames e))) (ha : Fed rate held t e arg)
      (hs : k.tick arg rate = .ok s) :
      s.kernel.Gauges e (.ofSamples (intake rate held (frames ++ [t]) e)) ∧ True :=
    ⟨tick_intake hk ha hs, trivial⟩
  have hstep := step_laid_fed (S := fun _ _ => True) hs hc hP
    (h.imp fun e k hk => ⟨hk.runs, hk.gauges⟩) hf
  exact hstep.1.imp fun e k hk => ⟨hk.1, hk.2⟩

theorem endBlock_metering {frames : List Nat} {p : Program}
    (h : Laid (Metering rate held current t frames) rate left right p) :
    Laid (Metering rate held current t []) rate left right p.endBlock.2 :=
  endBlock_laid (fun _ _ hk => ⟨runs_endBlock hk.runs, (Kernel.endBlock_gauges hk.gauges).1⟩) h

theorem setConst_metering (hs : Coherent (under [left, right])) {frames : List Nat} {p : Program}
    (h : Laid (Metering rate held current t frames) rate left right p) (key : String)
    (value : Float32) :
    Laid (Metering rate held (Function.update current key (some value)) t frames) rate left right
      (p.setConst key value) := by
  refine setConst_laid hs (fun e k hk => ⟨runs_set hk.runs key value, ?_⟩) h
  split
  · exact Kernel.setConst_gauges hk.gauges value
  · exact hk.gauges

/-! ## Blocks -/

/-- Whole blocks of `B` frames. -/
def wholeBlocks (B m : Nat) : List (List Nat) := (List.range m).map fun k => List.range' (k * B) B

/-- The blocks of `n` frames: the one at `k` goes from frame `k * B` up to the next block or to the
end. -/
def blocks (B n : Nat) : List (List Nat) :=
  (List.range ((n + B - 1) / B)).map fun k => List.range' (k * B) (min ((k + 1) * B) n - k * B)

/-- What is reported under a tag of some blocks. -/
def reports (tag : ProbeTag) (rate : Float32) (held : Settings) (roots : List Expr)
    (blocks : List (List Nat)) : List ProbeEvent :=
  blocks.flatMap fun frames => blockReport tag roots (intake rate held frames)

theorem block_end {B : Nat} (h : t % B + 1 = B) : (t + 1) % B = 0 ∧ (t + 1) / B = t / B + 1 := by
  have hB : 0 < B := by omega
  have ht := Nat.div_add_mod t B
  obtain ⟨hdiv, hmod⟩ := (Nat.div_mod_unique (a := t + 1) (c := 0) (d := t / B + 1) hB).2
    ⟨by rw [Nat.mul_add_one]; omega, hB⟩
  exact ⟨hmod, hdiv⟩

theorem block_inside {B : Nat} (h : t % B + 1 < B) :
    (t + 1) % B = t % B + 1 ∧ (t + 1) / B = t / B := by
  have ht := Nat.div_add_mod t B
  obtain ⟨hdiv, hmod⟩ := (Nat.div_mod_unique (a := t + 1) (c := t % B + 1) (d := t / B)
    (by omega : 0 < B)).2 ⟨by omega, h⟩
  exact ⟨hmod, hdiv⟩

theorem wholeBlocks_succ (B m : Nat) :
    wholeBlocks B (m + 1) = wholeBlocks B m ++ [List.range' (m * B) B] := by
  rw [wholeBlocks, List.range_succ, List.map_append]
  rfl

theorem flatten_wholeBlocks (B m : Nat) : (wholeBlocks B m).flatten = List.range (m * B) := by
  induction m with
  | zero => rw [Nat.zero_mul]; rfl
  | succ m ih =>
    rw [wholeBlocks_succ, List.flatten_append, ih, List.flatten_singleton, Nat.add_one_mul,
      List.range_eq_range', List.range_eq_range', ← List.range'_append_1, Nat.zero_add]

/-- Whole blocks, and what is left of the frames if anything is. -/
theorem blocks_eq {B : Nat} (hB : 1 ≤ B) (n : Nat) :
    blocks B n = wholeBlocks B (n / B) ++
      if n % B = 0 then [] else [List.range' (n / B * B) (n % B)] := by
  have hn := Nat.div_add_mod' n B
  have hwhole : ∀ k < n / B, min ((k + 1) * B) n - k * B = B := fun k hk => by
    have hle : (k + 1) * B ≤ n / B * B := Nat.mul_le_mul_right B hk
    rw [Nat.add_one_mul] at hle ⊢
    omega
  have hmap : (List.range (n / B)).map
      (fun k => List.range' (k * B) (min ((k + 1) * B) n - k * B)) = wholeBlocks B (n / B) :=
    List.map_congr_left fun k hk => by rw [hwhole k (List.mem_range.1 hk)]
  rw [blocks]
  split
  · next hmod =>
    have hceil : (n + B - 1) / B = n / B :=
      (Nat.div_eq_iff hB).2 ⟨by omega, by omega⟩
    rw [hceil, hmap, List.append_nil]
  · next hmod =>
    have hlt := Nat.mod_lt n hB
    have hceil : (n + B - 1) / B = n / B + 1 :=
      (Nat.div_eq_iff hB).2 ⟨by rw [Nat.add_one_mul]; omega, by rw [Nat.add_one_mul]; omega⟩
    have hlast : min ((n / B + 1) * B) n - n / B * B = n % B := by
      rw [Nat.add_one_mul]
      omega
    rw [hceil, List.range_succ, List.map_append, hmap, List.map_singleton, hlast]

/-- Every frame is in one block. -/
theorem flatten_blocks {B : Nat} (hB : 1 ≤ B) (n : Nat) : (blocks B n).flatten = List.range n := by
  have hn := Nat.div_add_mod' n B
  rw [blocks_eq hB, List.flatten_append, flatten_wholeBlocks]
  split
  · next hmod =>
    rw [hmod, Nat.add_zero] at hn
    rw [hn]
    exact List.append_nil _
  · have happend : List.range' 0 (n / B * B) ++ List.range' (0 + n / B * B) (n % B) =
        List.range' 0 (n / B * B + n % B) := List.range'_append_1
    rw [Nat.zero_add, hn] at happend
    rw [List.flatten_singleton, List.range_eq_range', List.range_eq_range', happend]

theorem reports_blocks (hB : 1 ≤ B) (n : Nat) (roots : List Expr) :
    reports tag rate held roots (wholeBlocks B (n / B)) ++ (if n % B = 0 then []
        else blockReport tag roots (intake rate held (List.range' (n / B * B) (n % B)))) =
      reports tag rate held roots (blocks B n) := by
  rw [blocks_eq hB, reports, reports, List.flatMap_append]
  split
  · rfl
  · rw [List.flatMap_singleton]

theorem length_reports (n : Nat) (roots : List Expr) :
    (reports tag rate held roots (blocks B n)).length =
      (n + B - 1) / B * (metersOf tag roots).length := by
  simp [reports, blocks, blockReport, List.length_flatMap, Function.comp_def]

/-! ## Frame by frame -/

/-- At the end of a block every meter reports the frames it has seen, if it has seen any. -/
theorem endBlock_heard (kind : tag.kind = .meter) {frames : List Nat} (seen : frames ≠ [])
    {p : Program} (h : Laid (Metering rate held current t frames) rate left right p)
    (bus : ProbeBus) (done : List Delivery) (once : bus.times listener tag = 1) :
    heardBy listener tag (Renderer.route p.endBlock.1 bus done).1.reverse =
        heardBy listener tag done.reverse ++
          blockReport tag [left, right] (intake rate held frames) ∧
      (Renderer.route p.endBlock.1 bus done).2.times listener tag = 1 := by
  rw [endBlock_raised (fun _ _ hk => hk.gauges) h]
  obtain ⟨hheard, honce⟩ := Renderer.route_tagged (fun _ => report_tagged) bus done once
  have htaken (e : Expr) : intake rate held frames e ≠ [] := List.map_eq_nil_iff.not.2 seen
  refine ⟨?_, honce⟩
  rw [hheard, map_report kind htaken]
  rfl

theorem endBlock_silent {p : Program}
    (h : Laid (Metering rate held current t []) rate left right p) : p.endBlock.1 = [] := by
  rw [endBlock_raised (fun _ _ hk => hk.gauges) h]
  exact filterMap_report_nil (fun _ => rfl) _

/-- A run before frame `t` of blocks of `B` frames: the meters have seen the frames of the block so
far, and someone who is subscribed once to a tag has heard the blocks before it. -/
structure Metered (listener : Nat) (tag : ProbeTag) (rate : Float32) (held : Settings)
    (current : String → Option Float32) (B : Nat) (left right : Expr) (before : List ProbeEvent)
    (t : Nat) (run : Renderer.Run) : Prop where
  laid : Laid (Metering rate held current t (List.range' (t / B * B) (t % B))) rate left right
    run.program
  pos : run.blockPos = t % B
  once : run.bus.times listener tag = 1
  heard : before ++ heardBy listener tag run.delivered.reverse =
    reports tag rate held [left, right] (wholeBlocks B (t / B))

theorem frame_metered (hs : Coherent (under [left, right])) (kind : tag.kind = .meter) (hB : 1 ≤ B)
    (hc : held t = current) {run run' : Renderer.Run}
    (h : Metered listener tag rate held current B left right before t run)
    (hf : run.frame B = .ok run') :
    Metered listener tag rate held current B left right before (t + 1) run' := by
  obtain ⟨⟨cells, values, constants, taps, l, r, sampleRate⟩, bus, pos, out, delivered⟩ := run
  obtain ⟨hlaid, hpos, honce, hheard⟩ := h
  simp only at hlaid hpos honce hheard
  subst hpos
  rw [Renderer.Run.frame] at hf
  split at hf
  · cases hf
  · next cells' values' raised hstep =>
    have hlaid' := step_metering hs hc hlaid hstep
    have hframes : List.range' (t / B * B) (t % B) ++ [t] =
        List.range' (t / B * B) (t % B + 1) := by
      rw [List.range'_concat, Nat.one_mul, Nat.div_add_mod']
    rw [hframes] at hlaid'
    have hraised := Program.step_raised hstep
    -- only taps with a window report in the middle of a block
    have hnone : raised.filter (·.tag = tag) = [] := by
      rw [List.filter_eq_nil_iff]
      intro e he htag
      have htag : e.tag = tag := by simpa using htag
      exact (hraised e he).2 (htag ▸ kind)
    obtain ⟨hheard', honce'⟩ :=
      Renderer.route_tagged (fun e he => (hraised e he).1) bus delivered honce
    rw [hnone, List.map_nil, List.append_nil] at hheard'
    have hlt := Nat.mod_lt t hB
    simp only at hf
    split at hf
    · next hfull =>
      have hlast : t % B + 1 = B := by omega
      obtain ⟨hmod, hdiv⟩ := block_end hlast
      rw [hlast] at hlaid'
      have hseen : List.range' (t / B * B) B ≠ [] := by
        rw [Ne, List.range'_eq_nil_iff]
        omega
      obtain ⟨hheard'', honce''⟩ := endBlock_heard kind hseen hlaid'
        (Renderer.route raised bus delivered).2 (Renderer.route raised bus delivered).1 honce'
      cases hf
      refine ⟨?_, hmod.symm, honce'', ?_⟩
      · rw [hmod]
        exact endBlock_metering hlaid'
      · rw [hheard'', hheard', ← List.append_assoc, hheard, hdiv, wholeBlocks_succ, reports,
          reports, List.flatMap_append, List.flatMap_singleton]
    · next hpart =>
      obtain ⟨hmod, hdiv⟩ := block_inside (by omega : t % B + 1 < B)
      cases hf
      refine ⟨?_, hmod.symm, honce', ?_⟩
      · rw [hmod, hdiv]
        exact hlaid'
      · rw [hheard', hdiv]
        exact hheard

theorem frames_metered (hs : Coherent (under [left, right])) (kind : tag.kind = .meter) (hB : 1 ≤ B)
    {n : Nat} (hc : ∀ i < n, held (t + i) = current) {run run' : Renderer.Run}
    (h : Metered listener tag rate held current B left right before t run)
    (hf : Renderer.Run.frames B n run = .ok run') :
    Metered listener tag rate held current B left right before (t + n) run' := by
  induction n generalizing t run with
  | zero =>
    cases hf
    exact h
  | succ n ih =>
    rw [Renderer.Run.frames] at hf
    split at hf
    · next between hframe =>
      have hnext := frame_metered hs kind hB (hc 0 (by omega)) h hframe
      have hlater : ∀ i < n, held (t + 1 + i) = current := fun i hi => by
        rw [Nat.add_right_comm]
        exact hc (i + 1) (by omega)
      rw [← Nat.add_assoc, Nat.add_right_comm]
      exact ih hlater hnext hf
    · cases hf

/-! ## Call by call -/

/-- A renderer before frame `t`, its meters as in a run of which nothing has been heard yet. -/
structure Watched (listener : Nat) (tag : ProbeTag) (rate : Float32) (held : Settings)
    (current : String → Option Float32) (B : Nat) (left right : Expr) (before : List ProbeEvent)
    (t : Nat) (r : Renderer) : Prop where
  blockSize : r.blockSize = B
  loaded : ∃ l, r.loaded = some l ∧ Metered listener tag rate held current B left right before t
    ⟨l.program, r.bus, r.blockPos, .empty, []⟩

/-- A call for frames or with a value, or one that leaves the subscription of a listener to a tag
alone. -/
def Control.Plays (listener : Nat) (tag : ProbeTag) : Control → Prop
  | process _ => True
  | processBlock _ _ => True
  | setConst _ _ => True
  | subscribe tag' listener' => ¬(tag' = tag ∧ listener' = listener)
  | unsubscribe tag' => tag' ≠ tag
  | _ => False

/-- What is played by a call. Two buffers are for as many frames as the shorter one holds. -/
def Control.call? : Control → Option Call
  | process n => some (.process n)
  | processBlock left right => some (.process (min left.size right.size))
  | setConst key value => some (.setConst key value)
  | _ => none

def Control.frames : Control → Nat
  | process n => n
  | processBlock left right => min left.size right.size
  | _ => 0

/-- What is set after a call. -/
def Control.sets (current : String → Option Float32) : Control → String → Option Float32
  | setConst key value => Function.update current key (some value)
  | _ => current

/-- The frames that some calls are for. -/
def framesOf (calls : List Control) : Nat := Call.frames (calls.filterMap Control.call?)

/-- What they set, by frame and key. -/
def settingsOf (calls : List Control) : Settings :=
  Call.settings (fun _ => none) (calls.filterMap Control.call?)

theorem framesOf_cons (c : Control) (rest : List Control) :
    framesOf (c :: rest) = c.frames + framesOf rest := by
  cases c with
  | process n => rfl
  | processBlock xs ys => rfl
  | _ => exact (Nat.zero_add _).symm

theorem settings_call (c : Control) (rest : List Control) (i : Nat) :
    Call.settings current ((c :: rest).filterMap Control.call?) i =
      if i < c.frames then current
      else Call.settings (c.sets current) (rest.filterMap Control.call?) (i - c.frames) := by
  cases c with
  | process n => rfl
  | processBlock xs ys => rfl
  | _ => exact (if_neg (Nat.not_lt_zero i)).symm

def Answer.deliveries : Answer → List Delivery
  | heard h => h.deliveries
  | reported deliveries => deliveries
  | _ => []

namespace Renderer

/-- A call for frames is answered as the renderer processes them. -/
theorem obey_plays {r : Renderer} (hl : r.isLoaded) {c : Control} {n : Nat}
    (hcall : c.call? = some (.process n)) :
    (∃ f, r.process n = .error f ∧ r.obey c = .error f) ∨
      ∃ heard r' a, r.process n = .ok (heard, r') ∧ r.obey c = .ok (a, r') ∧
        a.deliveries = heard.deliveries := by
  have hblock (xs ys : Array Float32) (hn : min xs.size ys.size = n) :
      (∃ f, r.process n = .error f ∧ r.processBlock xs ys = .error f) ∨
        ∃ heard r' filled, r.process n = .ok (heard, r') ∧
          r.processBlock xs ys = .ok (filled, r') ∧ filled.deliveries = heard.deliveries := by
    rw [processBlock, if_pos hl, hn]
    cases hp : r.process n with
    | error f => exact .inl ⟨f, rfl, rfl⟩
    | ok result => exact .inr ⟨_, _, _, rfl, rfl, rfl⟩
  cases c with
  | process m =>
    obtain rfl := Call.process.inj (Option.some.inj hcall)
    rw [obey]
    cases hp : r.process m with
    | error f => exact .inl ⟨f, rfl, rfl⟩
    | ok result => exact .inr ⟨result.1, result.2, _, rfl, rfl, rfl⟩
  | processBlock xs ys =>
    obtain ⟨f, hp, hb⟩ | ⟨heard, r', filled, hp, hb, hsame⟩ :=
      hblock xs ys (Call.process.inj (Option.some.inj hcall))
    · exact .inl ⟨f, hp, by rw [obey, hb]; rfl⟩
    · exact .inr ⟨heard, r', .heard filled, hp, by rw [obey, hb]; rfl, hsame⟩
  | _ => cases hcall

/-- A value is set, if anything carries its key, and nothing is delivered. -/
theorem obey_setConst (r : Renderer) (key : String) (value : Float32) :
    ∃ a, r.obey (.setConst key value) = .ok (a, (r.setConst? key value).getD r) ∧
      a.deliveries = [] := by
  rw [obey]
  cases r.setConst? key value with
  | none => exact ⟨_, rfl, rfl⟩
  | some r' => exact ⟨_, rfl, rfl⟩

theorem setConst_kept (r : Renderer) (key : String) (value : Float32) :
    ((r.setConst? key value).getD r).blockSize = r.blockSize ∧
      ((r.setConst? key value).getD r).bus = r.bus ∧
      ((r.setConst? key value).getD r).blockPos = r.blockPos := by
  cases hset : r.setConst? key value with
  | none => exact ⟨rfl, rfl, rfl⟩
  | some r' =>
    obtain ⟨_, _, -, -, rfl⟩ := setConst?_eq hset
    exact ⟨rfl, rfl, rfl⟩

theorem load_watched {r r' : Renderer} (h : r.load left right = .ok r')
    (bus : ProbeBus) (once : bus.times listener tag = 1) :
    Watched listener tag r.sampleRate held (fun _ => none) r.blockSize left right [] 0
      { r' with bus := bus } := by
  obtain ⟨p, hb, rfl⟩ := load_eq h
  refine ⟨rfl, ⟨left, right, p, []⟩, rfl, ?_, (Nat.zero_mod _).symm, once, ?_⟩
  · rw [Nat.zero_mod]
    exact build_laid hb fun e k hk => ⟨runs_fresh hk, Kernel.setup_gauges hk⟩
  · rw [Nat.zero_div]
    rfl

theorem process_watched (hs : Coherent (under [left, right])) (kind : tag.kind = .meter)
    (hB : 1 ≤ B) {n : Nat} (hc : ∀ i < n, held (t + i) = current) {r : Renderer}
    (h : Watched listener tag rate held current B left right before t r) :
    match r.process n with
    | .ok (heard, r') =>
      Watched listener tag rate held current B left right
        (before ++ heardBy listener tag heard.deliveries) (t + n) r' ∧
      ∀ e ∈ under [left, right], ∀ i < n, (e.stream rate held (t + i)).isSome
    | .error _ => ∃ e ∈ under [left, right], ∃ i < n, e.stream rate held (t + i) = none := by
  obtain ⟨sampleRate, blockSize, blockPos, loaded, bus, frames⟩ := r
  obtain ⟨rfl, ⟨leftRoot, rightRoot, program, overrides⟩, rfl, hmetered⟩ := h
  have hframes := frames_spec hs blockSize n hc _ (hmetered.laid.imp fun _ _ hk => hk.runs).playing
  rw [process]
  cases hf : Run.frames blockSize n ⟨program, bus, blockPos, .empty, []⟩ with
  | error f =>
    rw [hf] at hframes
    exact hframes
  | ok run =>
    rw [hf] at hframes
    obtain ⟨hlaid, hpos, honce, hheard⟩ := frames_metered hs kind hB hc hmetered hf
    refine ⟨⟨rfl, _, rfl, hlaid, hpos, honce, ?_⟩, hframes.2.1⟩
    rw [← hheard]
    exact List.append_nil _

theorem setConst_watched (hs : Coherent (under [left, right])) {r : Renderer}
    (h : Watched listener tag rate held current B left right before t r) (key : String)
    (value : Float32) :
    Watched listener tag rate held (Function.update current key (some value)) B left right before t
      ((r.setConst? key value).getD r) := by
  obtain ⟨hsize, l, hl, hlaid, hpos, honce, hheard⟩ := h
  obtain ⟨l', hl', hprogram⟩ := setConst_loaded hl key value
  have hsame := setConst_kept r key value
  refine ⟨hsame.1.trans hsize, l', hl', ?_⟩
  rw [hsame.2.1, hsame.2.2, hprogram]
  exact ⟨setConst_metering hs hlaid key value, hpos, honce, hheard⟩

theorem listen_watched {r : Renderer}
    (h : Watched listener tag rate held current B left right before t r) {bus : ProbeBus}
    (once : bus.times listener tag = r.bus.times listener tag) :
    Watched listener tag rate held current B left right before t { r with bus := bus } := by
  obtain ⟨hsize, l, hl, hlaid, hpos, honce, hheard⟩ := h
  exact ⟨hsize, l, hl, hlaid, hpos, once.trans honce, hheard⟩

theorem plays_watched (hs : Coherent (under [left, right])) (kind : tag.kind = .meter) (hB : 1 ≤ B)
    {c : Control} {n : Nat} (hcall : c.call? = some (.process n))
    (hc : ∀ i < n, held (t + i) = current) {r : Renderer}
    (h : Watched listener tag rate held current B left right before t r) :
    match r.obey c with
    | .ok (a, r') =>
      Watched listener tag rate held current B left right
        (before ++ heardBy listener tag a.deliveries) (t + n) r' ∧
      ∀ e ∈ under [left, right], ∀ i < n, (e.stream rate held (t + i)).isSome
    | .error _ => ∃ e ∈ under [left, right], ∃ i < n, e.stream rate held (t + i) = none := by
  have hprocess := process_watched hs kind hB hc h
  obtain ⟨-, l, hl, -⟩ := h
  obtain ⟨f, hp, ho⟩ | ⟨heard, r', a, hp, ho, hsame⟩ :=
    obey_plays (r := r) (by rw [isLoaded, hl]; rfl) hcall
  · rw [hp] at hprocess
    rw [ho]
    exact hprocess
  · rw [hp] at hprocess
    rw [ho]
    simp only [hsame]
    exact hprocess

theorem obey_watched (hs : Coherent (under [left, right])) (kind : tag.kind = .meter) (hB : 1 ≤ B)
    {c : Control} (hplays : c.Plays listener tag) (hc : ∀ i < c.frames, held (t + i) = current)
    {r : Renderer} (h : Watched listener tag rate held current B left right before t r) :
    match r.obey c with
    | .ok (a, r') =>
      Watched listener tag rate held (c.sets current) B left right
        (before ++ heardBy listener tag a.deliveries) (t + c.frames) r' ∧
      ∀ e ∈ under [left, right], ∀ i < c.frames, (e.stream rate held (t + i)).isSome
    | .error _ => ∃ e ∈ under [left, right], ∃ i < c.frames, e.stream rate held (t + i) = none := by
  have hsilent {r' : Renderer} {current' : String → Option Float32}
      (h' : Watched listener tag rate held current' B left right before t r') :
      Watched listener tag rate held current' B left right (before ++ heardBy listener tag [])
          (t + 0) r' ∧
        ∀ e ∈ under [left, right], ∀ i < 0, (e.stream rate held (t + i)).isSome := by
    refine ⟨?_, fun e _ i hi => absurd hi (Nat.not_lt_zero i)⟩
    rwa [heardBy, List.filter_nil, List.map_nil, List.append_nil]
  cases c with
  | process n => exact plays_watched hs kind hB rfl hc h
  | processBlock xs ys => exact plays_watched hs kind hB rfl hc h
  | setConst key value =>
    obtain ⟨a, ho, hnone⟩ := obey_setConst r key value
    rw [ho]
    simp only [hnone]
    exact hsilent (setConst_watched hs h key value)
  | subscribe tag' listener' =>
    exact hsilent (listen_watched h (ProbeBus.times_subscribe r.bus hplays))
  | unsubscribe tag' =>
    exact hsilent (listen_watched h (ProbeBus.times_unsubscribe r.bus listener hplays))
  | _ => exact hplays.elim

theorem perform_watched (hs : Coherent (under [left, right])) (kind : tag.kind = .meter)
    (hB : 1 ≤ B) {calls : List Control} (hplays : ∀ c ∈ calls, c.Plays listener tag)
    (hc : ∀ i, held (t + i) = Call.settings current (calls.filterMap Control.call?) i)
    {r : Renderer} (h : Watched listener tag rate held current B left right before t r) :
    match r.perform calls with
    | .ok (log, r') =>
      (∃ current', Watched listener tag rate held current' B left right
        (before ++ heardBy listener tag (log.flatMap fun entry => entry.2.deliveries))
        (t + framesOf calls) r') ∧
      ∀ e ∈ under [left, right], ∀ i < framesOf calls, (e.stream rate held (t + i)).isSome
    | .error _ => ∃ e ∈ under [left, right], ∃ i < framesOf calls,
        e.stream rate held (t + i) = none := by
  -- `Watched`, at the frame that has been reached and with what has been heard by then, carries
  -- the induction
  induction calls generalizing t current before r with
  | nil =>
    refine ⟨⟨current, ?_⟩, fun e _ i hi => absurd hi (Nat.not_lt_zero i)⟩
    have hnone : before ++ heardBy listener tag [] = before := List.append_nil _
    rw [List.flatMap_nil, hnone]
    exact h
  | cons c rest ih =>
    rw [List.forall_mem_cons] at hplays
    have hnow : ∀ i < c.frames, held (t + i) = current := fun i hi => by
      rw [hc, settings_call, if_pos hi]
    have hlater (i : Nat) : held (t + c.frames + i) =
        Call.settings (c.sets current) (rest.filterMap Control.call?) i := by
      rw [Nat.add_assoc, hc, settings_call, if_neg (by omega), Nat.add_sub_cancel_left]
    have hobey := obey_watched hs kind hB hplays.1 hnow h
    rw [perform, framesOf_cons]
    cases ho : r.obey c with
    | error f =>
      rw [ho] at hobey
      obtain ⟨e, he, i, hi, hend⟩ := hobey
      exact ⟨e, he, i, by omega, hend⟩
    | ok result =>
      obtain ⟨a, r'⟩ := result
      rw [ho] at hobey
      have hrest := ih hplays.2 hlater hobey.1
      simp only
      cases hp : r'.perform rest with
      | error f =>
        rw [hp] at hrest
        obtain ⟨e, he, i, hi, hend⟩ := hrest
        exact ⟨e, he, c.frames + i, by omega, by rwa [← Nat.add_assoc]⟩
      | ok result =>
        rw [hp] at hrest
        obtain ⟨⟨current', hwatched⟩, hgo⟩ := hrest
        simp only [Except.map]
        refine ⟨⟨current', ?_⟩, fun e he i hi => ?_⟩
        · rw [List.flatMap_cons, heardBy_append, ← List.append_assoc, ← Nat.add_assoc]
          exact hwatched
        · by_cases hin : i < c.frames
          · exact hobey.2 e he i hin
          · have := hgo e he (i - c.frames) (by omega)
            rwa [show t + c.frames + (i - c.frames) = t + i by omega] at this

/-- A flush reports the frames of the block so far, and leaves nothing to report. -/
theorem flush_watched (kind : tag.kind = .meter) (hB : 1 ≤ B) {r : Renderer}
    (h : Watched listener tag rate held current B left right before t r) :
    before ++ heardBy listener tag r.flush.1 = reports tag rate held [left, right] (blocks B t) ∧
      r.flush.2.flush.1 = [] := by
  obtain ⟨sampleRate, blockSize, blockPos, loaded, bus, frames⟩ := r
  obtain ⟨rfl, ⟨leftRoot, rightRoot, program, overrides⟩, rfl, hlaid, -, honce, hheard⟩ := h
  simp only at hlaid honce hheard
  refine ⟨?_, ?_⟩
  · rw [← reports_blocks hB, ← hheard, List.append_assoc]
    congr 1
    split
    · next hmod =>
      rw [hmod] at hlaid
      simp only [flush, endBlock_silent hlaid]
      rfl
    · next hmod =>
      exact (endBlock_heard kind (List.range'_eq_nil_iff.not.2 hmod) hlaid bus [] honce).1
  · simp only [flush, endBlock_silent (endBlock_metering hlaid)]
    rfl

end Renderer

theorem argument_isSome {n : Nat}
    (h : ∀ e ∈ under [left, right], ∀ t < n, (e.stream rate held t).isSome) {e : Expr}
    (he : e ∈ under [left, right]) (ht : t < n) : (argument rate held t e 0).isSome := by
  rw [argument]
  cases hc : e.children[0]? with
  | none => rfl
  | some c =>
    have hmem : c ∈ parts e := mem_parts_child (List.mem_of_getElem? hc) (mem_parts c)
    exact h c (partsAll_trans _ e he hmem) t ht

/-- Where all nodes get to the end of a run, a node takes in what it is handed. -/
theorem intake_some {n : Nat}
    (h : ∀ e ∈ under [left, right], ∀ t < n, (e.stream rate held t).isSome) {e : Expr}
    (he : e ∈ under [left, right]) {frames : List Nat} (hframes : ∀ t ∈ frames, t < n) :
    (intake rate held frames e).map some = frames.map fun t => argument rate held t e 0 := by
  rw [intake, List.map_map]
  refine List.map_congr_left fun t ht => ?_
  obtain ⟨x, hx⟩ := Option.isSome_iff_exists.1 (argument_isSome h he (hframes t ht))
  rw [Function.comp_apply, hx, Option.getD_some]

/-- Meters divide a run. Whatever calls a host makes for `n` frames after loading two roots, someone
subscribed once to the tag of a meter hears of every block in turn what each meter of that tag has
taken in during it, and with a flush of the frames that are left over; a second flush says nothing.
The blocks are as many as are needed for the frames, each frame is in one of them, and what is told
of a block are the least and the greatest number in it. -/
theorem meter_reports {r r₁ : Renderer} (shared : Coherent (under [left, right]))
    (blockSize : 1 ≤ r.blockSize) (loaded : r.load left right = .ok r₁) (kind : tag.kind = .meter)
    {bus : ProbeBus} (once : bus.times listener tag = 1) {calls : List Control}
    (plays : ∀ c ∈ calls, c.Plays listener tag) :
    ((∃ log r₂, ({ r₁ with bus := bus } : Renderer).perform calls = .ok (log, r₂)) ↔
      ∀ e ∈ under [left, right], ∀ t < framesOf calls,
        (e.stream r.sampleRate (settingsOf calls) t).isSome) ∧
    (blocks r.blockSize (framesOf calls)).flatten = List.range (framesOf calls) ∧
    ∀ log r₂, ({ r₁ with bus := bus } : Renderer).perform calls = .ok (log, r₂) →
      heardBy listener tag ((log.flatMap fun entry => entry.2.deliveries) ++ r₂.flush.1) =
        reports tag r.sampleRate (settingsOf calls) [left, right]
          (blocks r.blockSize (framesOf calls)) ∧
      (heardBy listener tag
          ((log.flatMap fun entry => entry.2.deliveries) ++ r₂.flush.1)).length =
        (framesOf calls + r.blockSize - 1) / r.blockSize * (metersOf tag [left, right]).length ∧
      (∀ e ∈ metersOf tag [left, right], ∀ frames ∈ blocks r.blockSize (framesOf calls),
        (intake r.sampleRate (settingsOf calls) frames e).map some =
          frames.map (fun t => argument r.sampleRate (settingsOf calls) t e 0) ∧
        ((∃ y ∈ intake r.sampleRate (settingsOf calls) frames e, y.isNaN = false) →
          (Extremes.ofSamples (intake r.sampleRate (settingsOf calls) frames e)).Bounds
            (intake r.sampleRate (settingsOf calls) frames e))) ∧
      r₂.flush.2.flush.1 = [] := by
  have hwatched : Watched listener tag r.sampleRate (settingsOf calls) (fun _ => none) r.blockSize
      left right [] 0 { r₁ with bus := bus } := Renderer.load_watched loaded bus once
  have hperform := Renderer.perform_watched shared kind blockSize plays
    (fun i => by rw [Nat.zero_add, settingsOf]) hwatched
  simp only [Nat.zero_add, List.nil_append] at hperform
  refine ⟨?_, flatten_blocks blockSize _, fun log r₂ hrun => ?_⟩
  · cases hrun : ({ r₁ with bus := bus } : Renderer).perform calls with
    | error f =>
      rw [hrun] at hperform
      obtain ⟨e, he, t, ht, hend⟩ := hperform
      constructor
      · rintro ⟨log, r₂, ⟨⟩⟩
      · intro hall
        have hgo := hall e he t ht
        rw [hend] at hgo
        cases hgo
    | ok result =>
      rw [hrun] at hperform
      exact ⟨fun _ => hperform.2, fun _ => ⟨result.1, result.2, rfl⟩⟩
  · rw [hrun] at hperform
    obtain ⟨⟨current, hend⟩, hgo⟩ := hperform
    obtain ⟨hflush, hagain⟩ := Renderer.flush_watched kind blockSize hend
    have hheard : heardBy listener tag ((log.flatMap fun entry => entry.2.deliveries) ++
        r₂.flush.1) = reports tag r.sampleRate (settingsOf calls) [left, right]
          (blocks r.blockSize (framesOf calls)) := by
      rw [heardBy_append, hflush]
    refine ⟨hheard, ?_, fun e he frames hframes => ⟨?_, Extremes.ofSamples_bounds⟩, hagain⟩
    · rw [hheard, length_reports]
    · have hmem : e ∈ under [left, right] :=
        (mem_nodesOf _ shared e).1 (List.mem_of_mem_filter he)
      refine intake_some hgo hmem fun t ht => ?_
      rw [← List.mem_range, ← flatten_blocks blockSize]
      exact List.mem_flatten.2 ⟨frames, hframes, ht⟩

/-- A dial with a meter on it. -/
def gaugedDial : Expr := .node ⟨.free, 1⟩ (.tap (.meter "m")) none [dial]

theorem coherent_gauged : Coherent (under [gaugedDial, dial]) :=
  coherent_of_subset [dial, gaugedDial] (by decide) (by simp [partsAll, parts, dial, gaugedDial])

/-- One frame before the dial is turned up and two after it, with someone else joining in. -/
def turned : List Control :=
  [.process 1, .setConst "dial" 3.0, .subscribe ⟨.meter, "m"⟩ 8,
    .processBlock #[0.0, 0.0] #[0.0, 0.0, 0.0]]

theorem meter_reports_gauged : ∃ (r₁ r₂ : Renderer) (log : List (Control × Answer)),
    Renderer.load ⟨48000.0, 2, 0, none, .empty, 0⟩ gaugedDial dial = .ok r₁ ∧
    ({ r₁ with bus := ⟨[⟨⟨.meter, "m"⟩, [7]⟩], 0⟩ } : Renderer).perform turned = .ok (log, r₂) ∧
    heardBy 7 ⟨.meter, "m"⟩ ((log.flatMap fun entry => entry.2.deliveries) ++ r₂.flush.1) =
      [.meter "m" 1.0 3.0, .meter "m" 3.0 3.0] ∧
    r₂.flush.2.flush.1 = [] := by
  have hload : Renderer.load ⟨48000.0, 2, 0, none, .empty, 0⟩ gaugedDial dial = .ok _ := rfl
  have honce : ProbeBus.times ⟨[⟨⟨.meter, "m"⟩, [7]⟩], 0⟩ 7 ⟨.meter, "m"⟩ = 1 := rfl
  have hplays : ∀ c ∈ turned, c.Plays 7 ⟨.meter, "m"⟩ := by simp [turned, Control.Plays]
  obtain ⟨-, -, hreports⟩ :=
    meter_reports coherent_gauged (by decide) hload rfl honce hplays
  obtain ⟨hheard, -, -, hagain⟩ := hreports _ _ rfl
  exact ⟨_, _, _, rfl, rfl, hheard, hagain⟩

end Patchbay
