import Mathlib
import Patchbay.Proofs.CallPattern
import Patchbay.Proofs.History

/-!
# Rebuilding

A renderer in use keeps its program, the roots it was made from, the values that were set and the
position in the block. To load two roots starts all of that anew. To change the rate rebuilds the
program from the roots and the values, so that nothing can be heard of what went before.
-/

set_option autoImplicit false

namespace Patchbay

open Patchbay.Expr

variable {rate : Float32} {left right : Expr} {current : String → Option Float32}

/-- A bus that has delivered some events before. -/
def ProbeBus.counted (k : Nat) (b : ProbeBus) : ProbeBus := { b with delivered := b.delivered + k }

theorem ProbeBus.emitWith_counted (k : Nat) (b : ProbeBus) (tag : ProbeTag)
    (build : String → ProbeEvent) :
    (b.counted k).emitWith tag build =
      ((b.emitWith tag build).1, (b.emitWith tag build).2.counted k) := by
  have hfind (t : ProbeTag) : (b.counted k).find? t = b.find? t := rfl
  rw [emitWith, emitWith, wants, wants, hfind]
  split
  · rw [emit, emit, hfind]
    split
    · simp only [counted, Nat.add_right_comm]
    · rfl
  · rfl

namespace Renderer

def Run.counted (k : Nat) (run : Run) : Run := { run with bus := run.bus.counted k }

def counted (k : Nat) (r : Renderer) : Renderer := { r with bus := r.bus.counted k }

theorem route_counted (k : Nat) (raised : List Raised) (bus : ProbeBus) (done : List Delivery) :
    route raised (bus.counted k) done =
      ((route raised bus done).1, (route raised bus done).2.counted k) := by
  induction raised generalizing bus done with
  | nil => rfl
  | cons e raised ih =>
    simp only [route, ProbeBus.emitWith_counted]
    exact ih _ _

theorem frame_counted (blockSize k : Nat) (run : Run) :
    (run.counted k).frame blockSize = (run.frame blockSize).map (Run.counted k) := by
  obtain ⟨⟨cells, values, constants, taps, left, right, rate⟩, bus, pos, out, delivered⟩ := run
  simp only [Run.counted, Run.frame]
  cases Program.step rate cells 0 values Program.scratch with
  | error e => rfl
  | ok f =>
    simp only [route_counted]
    split
    · rfl
    · rfl

theorem frames_counted (blockSize n k : Nat) (run : Run) :
    Run.frames blockSize n (run.counted k) = (Run.frames blockSize n run).map (Run.counted k) := by
  induction n generalizing run with
  | zero => rfl
  | succ n ih =>
    rw [Run.frames, Run.frames, frame_counted]
    cases run.frame blockSize with
    | error e => rfl
    | ok run' => exact ih run'

theorem process_counted (n k : Nat) (r : Renderer) :
    (r.counted k).process n = (r.process n).map fun (heard, r) => (heard, r.counted k) := by
  obtain ⟨rate, blockSize, pos, loaded, bus, frames⟩ := r
  cases loaded with
  | none => rfl
  | some l =>
    have hrun := frames_counted blockSize n k ⟨l.program, bus, pos, .empty, []⟩
    rw [Run.counted] at hrun
    simp only [process, counted, hrun]
    cases Run.frames blockSize n ⟨l.program, bus, pos, .empty, []⟩ with
    | error f => rfl
    | ok run => rfl

theorem processBlock_counted (left right : Array Float32) (k : Nat) (r : Renderer) :
    (r.counted k).processBlock left right =
      (r.processBlock left right).map fun (heard, r) => (heard, r.counted k) := by
  have hloaded : (r.counted k).isLoaded = r.isLoaded := rfl
  rw [processBlock, processBlock, hloaded, process_counted]
  split
  · cases r.process (min left.size right.size) with
    | error f => rfl
    | ok result => rfl
  · rfl

theorem settle_counted (k : Nat) (r : Renderer) (x : Except RenderError Renderer) :
    (r.counted k).settle (x.map (counted k)) =
      (r.settle x).map fun (a, r) => (a, r.counted k) := by
  cases x with
  | ok r' => rfl
  | error e => cases e <;> rfl

theorem load_counted (left right : Expr) (k : Nat) (r : Renderer) :
    (r.counted k).load left right = (r.load left right).map (counted k) := by
  have hrate : (r.counted k).sampleRate = r.sampleRate := rfl
  rw [load, load, hrate]
  cases buildProgram left right r.sampleRate with
  | error e => rfl
  | ok p => rfl

theorem setSampleRate_counted (rate : Float32) (k : Nat) (r : Renderer) :
    (r.counted k).setSampleRate rate = (r.setSampleRate rate).map (counted k) := by
  obtain ⟨sampleRate, blockSize, pos, loaded, bus, frames⟩ := r
  simp only [setSampleRate, counted]
  cases checkSampleRate rate with
  | error e => rfl
  | ok _ =>
    cases loaded with
    | none => rfl
    | some l =>
      simp only
      cases buildProgram l.leftRoot l.rightRoot rate with
      | error e => rfl
      | ok p => rfl

theorem setConst?_counted (key : String) (value : Float32) (k : Nat) (r : Renderer) :
    (r.counted k).setConst? key value = (r.setConst? key value).map (counted k) := by
  obtain ⟨sampleRate, blockSize, pos, loaded, bus, frames⟩ := r
  cases loaded with
  | none => rfl
  | some l =>
    simp only [setConst?, counted, Option.bind_eq_bind, Option.bind_some]
    cases l.program.setConst? key value with
    | none => rfl
    | some p => rfl

/-- How many events a bus has delivered before makes no difference to a call. -/
theorem obey_counted (c : Control) (k : Nat) (r : Renderer) :
    (r.counted k).obey c = (r.obey c).map fun (a, r) => (a, r.counted k) := by
  cases c with
  | load left right => rw [obey, obey, load_counted, settle_counted]
  | clear => rfl
  | setConst key value =>
    rw [obey, obey, setConst?_counted]
    cases r.setConst? key value with
    | none => rfl
    | some r' => rfl
  | setSampleRate rate => rw [obey, obey, setSampleRate_counted, settle_counted]
  | withBlockSize n => rfl
  | reset => rfl
  | process n =>
    rw [obey, obey, process_counted]
    cases r.process n with
    | error f => rfl
    | ok result => rfl
  | processBlock left right =>
    rw [obey, obey, processBlock_counted]
    cases r.processBlock left right with
    | error f => rfl
    | ok result => rfl
  | flush =>
    obtain ⟨rate, blockSize, pos, loaded, bus, frames⟩ := r
    cases loaded with
    | none => rfl
    | some l =>
      simp only [obey, flush, counted, route_counted]
      rfl
  | subscribe tag listener => rfl
  | unsubscribe tag => rfl

theorem perform_counted (calls : List Control) (k : Nat) (r : Renderer) :
    (r.counted k).perform calls = (r.perform calls).map fun (log, r) => (log, r.counted k) := by
  induction calls generalizing r with
  | nil => rfl
  | cons c calls ih =>
    rw [perform, perform, obey_counted]
    cases r.obey c with
    | error f => rfl
    | ok result =>
      simp only [Except.map, ih]
      cases result.2.perform calls with
      | error f => rfl
      | ok rest => rfl

end Renderer

/-- The kernel of a node that is new but for the values that have been set. -/
def SetAs (rate : Float32) (current : String → Option Float32) (e : Expr) (k : Kernel) : Prop :=
  ∃ new, Kernel.setup e.op e.key rate = .ok new ∧
    k = match (Program.constKey? e).bind current with
      | some v => new.setConst v
      | none => new

theorem setAs_setup (e : Expr) (k : Kernel) (h : Kernel.setup e.op e.key rate = .ok k) :
    SetAs rate (fun _ => none) e k := by
  refine ⟨k, h, ?_⟩
  cases Program.constKey? e <;> rfl

theorem setAs_set (key : String) (value : Float32) (e : Expr) (k : Kernel)
    (h : SetAs rate current e k) :
    SetAs rate (Function.update current key (some value)) e
      (if Program.constKey? e = some key then k.setConst value else k) := by
  obtain ⟨new, hnew, rfl⟩ := h
  refine ⟨new, hnew, ?_⟩
  rw [bind_update]
  split
  · split
    · exact Program.setConst_setConst new _ value
    · rfl
  · rfl

theorem setAs_unique (e : Expr) (k k' : Kernel) (h : SetAs rate current e k)
    (h' : SetAs rate current e k') : k = k' := by
  obtain ⟨new, hnew, rfl⟩ := h
  obtain ⟨new', hnew', rfl⟩ := h'
  obtain rfl : new = new' := Except.ok.inj (hnew.symm.trans hnew')
  rfl

theorem foldl_setAs (shared : Coherent (under [left, right])) (settings : List (String × Float32))
    {p : Program} (h : Laid (SetAs rate current) rate left right p) :
    Laid (SetAs rate (settings.foldl (fun (c : String → Option Float32) s =>
      Function.update c s.1 (some s.2)) current)) rate left right
      (settings.foldl (fun p s => p.setConst s.1 s.2) p) ∧
    (settings.foldl (fun p s => p.setConst s.1 s.2) p).values = p.values := by
  induction settings generalizing p current with
  | nil => exact ⟨h, rfl⟩
  | cons s settings ih =>
    obtain ⟨hlaid, hvalues⟩ := ih (setConst_laid shared (setAs_set s.1 s.2) h)
    rw [Program.setConst_values] at hvalues
    exact ⟨hlaid, hvalues⟩

/-- On a program that is new it makes no difference in which order the values are set. -/
theorem foldl_setConst (shared : Coherent (under [left, right])) {p : Program}
    (hb : Program.build left right rate = .ok p) {settings overrides : List (String × Float32)}
    (hkeys : (settings.map Prod.fst).Nodup) (hkeys' : (overrides.map Prod.fst).Nodup)
    (heq : lookup settings = lookup overrides) :
    settings.foldl (fun p s => p.setConst s.1 s.2) p =
      overrides.foldl (fun p s => p.setConst s.1 s.2) p := by
  have hlaid : Laid (SetAs rate fun _ => none) rate left right p := build_laid hb setAs_setup
  obtain ⟨hset, hvalues⟩ := foldl_setAs shared settings hlaid
  obtain ⟨hset', hvalues'⟩ := foldl_setAs shared overrides hlaid
  have hcurrent : settings.foldl (fun (c : String → Option Float32) s =>
      Function.update c s.1 (some s.2)) (fun _ => none) =
      overrides.foldl (fun (c : String → Option Float32) s =>
      Function.update c s.1 (some s.2)) (fun _ => none) := by
    funext key
    rw [foldl_update hkeys, foldl_update hkeys', heq]
  rw [hcurrent] at hset
  exact laid_unique setAs_unique hset hset' (hvalues.trans hvalues'.symm)

namespace Renderer

theorem setAll_eq (settings : List (String × Float32)) {r : Renderer} {l : Loaded}
    (h : r.loaded = some l) :
    ∃ l', r.setAll settings = { r with loaded := some l' } ∧
      l'.program = settings.foldl (fun p s => p.setConst s.1 s.2) l.program := by
  induction settings generalizing r l with
  | nil => exact ⟨l, by rw [← h]; rfl, rfl⟩
  | cons s settings ih =>
    obtain ⟨l', hl', hp⟩ := setConst_loaded h s.1 s.2
    obtain ⟨l'', heq, hp'⟩ := ih hl'
    refine ⟨l'', ?_, ?_⟩
    · rw [setAll, List.foldl_cons]
      rw [setAll] at heq
      rw [heq]
      cases hs : r.setConst? s.1 s.2 with
      | none => rfl
      | some r' =>
        obtain ⟨_, _, _, _, rfl⟩ := setConst?_eq hs
        rfl
    · rw [hp', hp, List.foldl_cons]

theorem process_heard {r : Renderer} {l : Loaded} (h : r.loaded = some l) (n : Nat) :
    (r.process n).map Prod.fst =
      (Run.frames r.blockSize n ⟨l.program, r.bus, r.blockPos, .empty, []⟩).map fun run =>
        ⟨run.out, run.delivered.reverse⟩ := by
  obtain ⟨rate, blockSize, pos, loaded, bus, frames⟩ := r
  cases h
  rw [process]
  cases Run.frames blockSize n ⟨l.program, bus, pos, .empty, []⟩ with
  | error f => rfl
  | ok run => rfl

/-- Renderers with the same program are heard alike, block by block and listener by listener. -/
theorem process_agree {r r' : Renderer} {l l' : Loaded} (h : r.loaded = some l)
    (h' : r'.loaded = some l') (hprogram : l.program = l'.program)
    (hblocks : r.blockSize = r'.blockSize) (hpos : r.blockPos = r'.blockPos)
    (hbus : ∃ k, r.bus = r'.bus.counted k) (n : Nat) :
    (r.process n).map Prod.fst = (r'.process n).map Prod.fst := by
  obtain ⟨k, hbus⟩ := hbus
  have hrun := frames_counted r'.blockSize n k ⟨l'.program, r'.bus, r'.blockPos, .empty, []⟩
  rw [Run.counted] at hrun
  rw [process_heard h, process_heard h', hprogram, hblocks, hpos, hbus, hrun]
  cases Run.frames r'.blockSize n ⟨l'.program, r'.bus, r'.blockPos, .empty, []⟩ with
  | error f => rfl
  | ok run => rfl

theorem anew_eq {r : Renderer} (hrate : checkSampleRate rate = .ok ()) (hblocks : 1 ≤ r.blockSize) :
    r.anew rate = .ok ⟨rate, r.blockSize, 0, none, ⟨r.bus.subscriptions, 0⟩, 0⟩ := by
  rw [anew, new, hrate]
  show Except.ok (Renderer.mk rate (max r.blockSize 1) 0 none ⟨r.bus.subscriptions, 0⟩ 0) = _
  rw [max_eq_left hblocks]

end Renderer

/-- Two roots that are loaded are from then on as on a new renderer. -/
theorem load_anew {m : Memory} {r r₁ : Renderer} (h : Kept m r)
    (hload : r.load left right = .ok r₁) :
    ∃ other other₁, r.anew r.sampleRate = .ok other ∧ other.load left right = .ok other₁ ∧
      ∀ calls, (r₁.perform calls).map (fun (log, r) => (log, r.frames)) =
        (other₁.perform calls).map fun (log, r) => (log, r.frames) := by
  obtain ⟨p, hb, rfl⟩ := Renderer.load_eq hload
  refine ⟨_, _, Renderer.anew_eq h.rate h.blocks, Renderer.load_of_build hb, fun calls => ?_⟩
  have hcount := Renderer.perform_counted calls r.bus.delivered
    ⟨r.sampleRate, r.blockSize, 0, some ⟨left, right, p, []⟩, ⟨r.bus.subscriptions, 0⟩, 0⟩
  rw [Renderer.counted, ProbeBus.counted, Nat.zero_add] at hcount
  rw [hcount]
  cases Renderer.perform _ calls with
  | error f => rfl
  | ok result => rfl

/-- A program that is rebuilt for another rate is that of a new renderer on which the same values are
set. -/
theorem setSampleRate_anew {m : Memory} {r r₁ : Renderer} (h : Kept m r)
    (hroots : m.roots = some (left, right)) (shared : Coherent (under [left, right]))
    (hset : r.setSampleRate rate = .ok r₁) :
    ∃ other other₁, r.anew rate = .ok other ∧ other.load left right = .ok other₁ ∧
      ∀ settings : List (String × Float32), (settings.map Prod.fst).Nodup →
        (∀ key value, (key, value) ∈ settings ↔ m.settings key = some value) →
        ∀ requests, (r₁.serve requests).map Prod.fst =
          ((other₁.setAll settings).serve requests).map Prod.fst := by
  obtain ⟨-, hblocks, -, overrides, hasked, hkeys, hsettings⟩ := h
  rw [hroots, Option.map_some, Renderer.asked, Option.map_eq_some_iff] at hasked
  obtain ⟨l, hl, heq⟩ := hasked
  simp only [Prod.mk.injEq] at heq
  obtain ⟨⟨rfl, rfl⟩, rfl⟩ := heq
  obtain ⟨hrate, ⟨hnone, -⟩ | ⟨l', p, hl', hb, rfl⟩⟩ := Renderer.setSampleRate_eq hset
  · rw [hl] at hnone
    cases hnone
  · obtain rfl : l = l' := Option.some.inj (hl.symm.trans hl')
    refine ⟨_, _, Renderer.anew_eq hrate hblocks, Renderer.load_of_build hb, ?_⟩
    intro settings hnodup hmem requests
    have hlookup : lookup settings = lookup l.overrides := by
      funext key
      apply Option.ext
      intro value
      rw [lookup_eq_some_iff hnodup, hmem, hsettings]
    obtain ⟨l'', hall, hprogram⟩ := Renderer.setAll_eq settings (r := ⟨rate, r.blockSize, 0,
      some ⟨l.leftRoot, l.rightRoot, p, []⟩, ⟨r.bus.subscriptions, 0⟩, 0⟩) rfl
    rw [foldl_setConst shared hb hnodup hkeys hlookup] at hprogram
    rw [hall, Renderer.serve_eq, Renderer.serve_eq]
    apply Renderer.process_agree
    · rfl
    · rfl
    · exact hprogram.symm
    · rfl
    · rfl
    · refine ⟨r.bus.delivered, ?_⟩
      rw [ProbeBus.counted, Nat.zero_add]

/-- Whatever a renderer has been through, two roots that are loaded are from then on as on a new one:
every answer, with samples and events, and the count of frames. And once the rate changes, what is
loaded is heard as on a new renderer at that rate on which every value that was set is set again. -/
theorem rebuild {start r : Renderer} (new : Renderer.new rate = .ok start)
    (history : List Control) {log : List (Control × Answer)}
    (performed : start.perform history = .ok (log, r)) :
    (∀ left right r₁, r.load left right = .ok r₁ →
      ∃ other other₁, r.anew r.sampleRate = .ok other ∧ other.load left right = .ok other₁ ∧
        ∀ calls, (r₁.perform calls).map (fun (log, r) => (log, r.frames)) =
          (other₁.perform calls).map fun (log, r) => (log, r.frames)) ∧
    r.isLoaded = (Memory.ofLog log).roots.isSome ∧
    ∀ left right rate r₁, (Memory.ofLog log).roots = some (left, right) →
      Coherent (under [left, right]) → r.setSampleRate rate = .ok r₁ →
      ∃ other other₁, r.anew rate = .ok other ∧ other.load left right = .ok other₁ ∧
        ∀ settings : List (String × Float32), (settings.map Prod.fst).Nodup →
          (∀ key value, (key, value) ∈ settings ↔
            (Memory.ofLog log).settings key = some value) →
          ∀ requests, (r₁.serve requests).map Prod.fst =
            ((other₁.setAll settings).serve requests).map Prod.fst := by
  have hkept : Kept (Memory.ofLog log) r :=
    Renderer.perform_kept history (Renderer.new_kept new) performed
  refine ⟨fun left right r₁ => load_anew hkept, ?_, fun left right rate r₁ => setSampleRate_anew hkept⟩
  obtain ⟨-, -, -, overrides, hasked, -, -⟩ := hkept
  rw [Renderer.asked] at hasked
  rw [Renderer.isLoaded, ← Option.isSome_map, hasked, Option.isSome_map]

theorem rebuild_swell : ∃ (start r r₁ r₂ : Renderer) (log : List (Control × Answer)),
    Renderer.new 48000.0 = .ok start ∧
    start.perform [.load dial swell, .setConst "cutoff" 1.0, .process 1, .setConst "dial" 0.25] =
      .ok (log, r) ∧
    r.load swell dial = .ok r₁ ∧ r.setSampleRate 44100.0 = .ok r₂ ∧
    (∃ other other₁, r.anew r.sampleRate = .ok other ∧ other.load swell dial = .ok other₁ ∧
      ∀ calls, (r₁.perform calls).map (fun (log, r) => (log, r.frames)) =
        (other₁.perform calls).map fun (log, r) => (log, r.frames)) ∧
    ∃ other other₁, r.anew 44100.0 = .ok other ∧ other.load dial swell = .ok other₁ ∧
      ∀ requests, (r₂.serve requests).map Prod.fst =
        ((other₁.setAll [("dial", 0.25)]).serve requests).map Prod.fst := by
  have hnew : Renderer.new 48000.0 = .ok _ := rfl
  obtain ⟨hload, -, hset⟩ := rebuild hnew
    [.load dial swell, .setConst "cutoff" 1.0, .process 1, .setConst "dial" 0.25] rfl
  obtain ⟨other, other₁, hother, hother₁, hserve⟩ :=
    hset dial swell 44100.0 _ rfl coherent_swell rfl
  have hsettings (key : String) (value : Float32) : (key, value) ∈ [("dial", (0.25 : Float32))] ↔
      Function.update (fun _ => none) "dial" (some 0.25) key = some value := by
    rw [List.mem_singleton, Prod.mk.injEq, Function.update_apply]
    by_cases h : key = "dial" <;> simp [h, eq_comm]
  exact ⟨_, _, _, _, _, hnew, rfl, rfl, rfl, hload swell dial _ rfl, other, other₁, hother, hother₁,
    hserve [("dial", 0.25)] (by decide) hsettings⟩

end Patchbay
