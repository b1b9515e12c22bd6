import Mathlib
import Patchbay.Proofs.WindowTap

/-!
# Windows tile a run

Whatever a host does between the frames of a run, the windows of a tap lie end to end from the first
frame on. Listeners come and go without moving them: who is subscribed at the last frame of a window
hears of it, with all samples since the window before, and nobody else does.
-/

set_option autoImplicit false

namespace Patchbay

open Patchbay.Expr

variable {rate : Float32} {held : Settings} {current : String → Option Float32}
variable {left right : Expr} {t : Nat}

/-! ## What a host can do -/

/-- What a host does with a loaded renderer: it makes a call, or makes of the subscriptions what it
likes. -/
inductive Move where
  | obey (c : Control)
  | listen (subscriptions : List Subscription)

/-- A call that does not begin anew. -/
def Control.Continues : Control → Prop
  | load _ _ => False
  | clear => False
  | reset => False
  | setSampleRate _ => False
  | _ => True

namespace Move

def Continues : Move → Prop
  | obey c => c.Continues
  | listen _ => True

def control? : Move → Option Control
  | obey c => some c
  | listen _ => none

def frames : Move → Nat
  | obey c => c.frames
  | listen _ => 0

/-- The bus after a move, but for the count of what was delivered. -/
def leaves (bus : ProbeBus) : Move → ProbeBus
  | obey (.subscribe tag listener) => bus.subscribe tag listener
  | obey (.unsubscribe tag) => bus.unsubscribe tag
  | obey _ => bus
  | listen subscriptions => { bus with subscriptions := subscriptions }

/-- The bus at frame `t` of some moves. -/
def busAt (bus : ProbeBus) : List Move → Nat → ProbeBus
  | [], _ => bus
  | m :: rest, t => if t < m.frames then bus else busAt (m.leaves bus) rest (t - m.frames)

/-- The frames that some moves are for. -/
def total (moves : List Move) : Nat := framesOf (moves.filterMap control?)

/-- What they set, by frame and key. -/
def settings (moves : List Move) : Settings := settingsOf (moves.filterMap control?)

theorem total_cons (m : Move) (rest : List Move) : total (m :: rest) = m.frames + total rest := by
  cases m with
  | obey c => exact framesOf_cons c _
  | listen subscriptions => exact (Nat.zero_add _).symm

end Move

namespace Renderer

/-- Some moves one after the other, with all that is delivered on the way. -/
def follow (r : Renderer) : List Move → Except KernelFault (List Delivery × Renderer)
  | [] => .ok ([], r)
  | .obey c :: rest =>
    match r.obey c with
    | .error f => .error f
    | .ok (a, r) => (r.follow rest).map fun (later, r) => (a.deliveries ++ later, r)
  | .listen subscriptions :: rest =>
    { r with bus := { r.bus with subscriptions := subscriptions } }.follow rest

end Renderer

/-! ## Move by move -/

/-- A renderer before frame `t`, with the subscriptions of a bus. -/
structure Tiling (rate : Float32) (held : Settings) (current : String → Option Float32) (t : Nat)
    (left right : Expr) (bus : ProbeBus) (r : Renderer) : Prop where
  subscriptions : r.bus.subscriptions = bus.subscriptions
  loaded : ∃ l, r.loaded = some l ∧ Laid (Gathering rate held current t) rate left right l.program

/-- What is heard in `n` frames from frame `t` on, if the streams of all nodes go on so long. -/
structure Told (rate : Float32) (held : Settings) (left right : Expr) (t n : Nat)
    (buses : Nat → ProbeBus) (deliveries : List Delivery) : Prop where
  heard : ∀ listener tag, tag.kind ≠ .meter → heardBy listener tag deliveries =
    windowsHeard tag rate held [left, right] (fun i => (buses i).times listener tag)
      (List.range' t n)
  goes : ∀ e ∈ under [left, right], ∀ i < n, (e.stream rate held (t + i)).isSome

/-- Nothing is told of no frames. -/
theorem Told.nothing {deliveries : List Delivery}
    (h : ∀ listener tag, tag.kind ≠ .meter → heardBy listener tag deliveries = [])
    (buses : Nat → ProbeBus) : Told rate held left right t 0 buses deliveries :=
  ⟨h, fun _ _ _ hi => absurd hi (Nat.not_lt_zero _)⟩

theorem Told.append {m n : Nat} {buses : Nat → ProbeBus} {before later : List Delivery}
    (h : Told rate held left right t m buses before)
    (h' : Told rate held left right (t + m) n buses later) :
    Told rate held left right t (m + n) buses (before ++ later) := by
  refine ⟨fun listener tag kind => ?_, fun e he i hi => ?_⟩
  · rw [heardBy_append, h.heard listener tag kind, h'.heard listener tag kind,
      ← windowsHeard_append, List.range'_append_1]
  · by_cases him : i < m
    · exact h.goes e he i him
    · have := h'.goes e he (i - m) (by omega)
      rwa [show t + m + (i - m) = t + i by omega] at this

theorem Told.congr {n : Nat} {buses buses' : Nat → ProbeBus} {deliveries : List Delivery}
    (h : Told rate held left right t n buses deliveries)
    (heq : ∀ i, t ≤ i → i < t + n → buses' i = buses i) :
    Told rate held left right t n buses' deliveries := by
  refine ⟨fun listener tag kind => ?_, h.goes⟩
  rw [h.heard listener tag kind]
  refine windowsHeard_congr fun i hi => ?_
  rw [List.mem_range'_1] at hi
  rw [heq i hi.1 hi.2]

/-- The stream of some node ends within `n` frames from frame `t` on. -/
def Ends (rate : Float32) (held : Settings) (left right : Expr) (t n : Nat) : Prop :=
  ∃ e ∈ under [left, right], ∃ i < n, e.stream rate held (t + i) = none

namespace Renderer

variable {bus : ProbeBus} {r : Renderer}

theorem load_tiling {r' : Renderer} (h : r.load left right = .ok r') :
    Tiling r.sampleRate held (fun _ => none) 0 left right r'.bus r' := by
  obtain ⟨p, hb, rfl⟩ := load_eq h
  exact ⟨rfl, _, rfl, build_laid hb fun e k hk => ⟨runs_fresh hk, Kernel.setup_gathers hk⟩⟩

theorem process_tiling (hs : Coherent (under [left, right])) {n : Nat}
    (hc : ∀ i < n, held (t + i) = current) (h : Tiling rate held current t left right bus r) :
    match r.process n with
    | .ok (heard, r') => Tiling rate held current (t + n) left right bus r' ∧
        Told rate held left right t n (fun _ => bus) heard.deliveries
    | .error _ => Ends rate held left right t n := by
  obtain ⟨sampleRate, blockSize, blockPos, loaded, bus', frames⟩ := r
  obtain ⟨hsubs, ⟨leftRoot, rightRoot, program, overrides⟩, rfl, hlaid⟩ := h
  have hframes := frames_spec hs blockSize n hc ⟨program, bus', blockPos, .empty, []⟩
    (hlaid.imp fun _ _ hk => hk.runs).playing
  rw [process]
  cases hf : Run.frames blockSize n ⟨program, bus', blockPos, .empty, []⟩ with
  | error f =>
    rw [hf] at hframes
    exact hframes
  | ok run =>
    rw [hf] at hframes
    obtain ⟨hlaid', hsubs', hheard⟩ := frames_gathering hs hc hlaid hf
    refine ⟨⟨hsubs'.trans hsubs, _, rfl, hlaid'⟩, fun listener tag kind => ?_, hframes.2.1⟩
    have htimes : bus.times listener tag = bus'.times listener tag :=
      ProbeBus.times_of_subscriptions hsubs.symm listener tag
    rw [htimes]
    exact hheard listener tag kind

theorem plays_tiling (hs : Coherent (under [left, right])) {c : Control} {n : Nat}
    (hcall : c.call? = some (.process n)) (hc : ∀ i < n, held (t + i) = current)
    (h : Tiling rate held current t left right bus r) :
    match r.obey c with
    | .ok (a, r') => Tiling rate held current (t + n) left right bus r' ∧
        Told rate held left right t n (fun _ => bus) a.deliveries
    | .error _ => Ends rate held left right t n := by
  have hprocess := process_tiling hs hc h
  obtain ⟨-, l, hl, -⟩ := h
  obtain ⟨f, hp, ho⟩ | ⟨heard, r', a, hp, ho, hsame⟩ :=
    obey_plays (r := r) (by rw [isLoaded, hl]; rfl) hcall
  · rw [hp] at hprocess
    rw [ho]
    exact hprocess
  · rw [hp] at hprocess
    rw [ho]
    simp only [hsame]
    exact hprocess

theorem setConst_tiling (hs : Coherent (under [left, right]))
    (h : Tiling rate held current t left right bus r) (key : String) (value : Float32) :
    Tiling rate held (Function.update current key (some value)) t left right bus
      ((r.setConst? key value).getD r) := by
  obtain ⟨hsubs, l, hl, hlaid⟩ := h
  obtain ⟨l', hl', hprogram⟩ := setConst_loaded hl key value
  refine ⟨(setConst_kept r key value).2.1 ▸ hsubs, l', hl', ?_⟩
  rw [hprogram]
  exact setConst_gathering hs hlaid key value

theorem flush_tiling (h : Tiling rate held current t left right bus r) :
    Tiling rate held current t left right bus r.flush.2 ∧
      ∀ listener tag, tag.kind ≠ .meter → heardBy listener tag r.flush.1 = [] := by
  obtain ⟨sampleRate, blockSize, blockPos, loaded, bus', frames⟩ := r
  obtain ⟨hsubs, ⟨leftRoot, rightRoot, program, overrides⟩, rfl, hlaid⟩ := h
  obtain ⟨hsubs', hheard⟩ := endBlock_unheard program bus' []
  exact ⟨⟨hsubs'.trans hsubs, _, rfl, endBlock_gathering hlaid⟩, hheard⟩

theorem obey_tiling (hs : Coherent (under [left, right])) {c : Control} (hcontinues : c.Continues)
    (hc : ∀ i < c.frames, held (t + i) = current)
    (h : Tiling rate held current t left right bus r) :
    match r.obey c with
    | .ok (a, r') =>
      Tiling rate held (c.sets current) (t + c.frames) left right ((Move.obey c).leaves bus) r' ∧
        Told rate held left right t c.frames (fun _ => bus) a.deliveries
    | .error _ => Ends rate held left right t c.frames := by
  have hsilent (buses : Nat → ProbeBus) : Told rate held left right t 0 buses [] :=
    .nothing (fun _ _ _ => rfl) buses
  cases c with
  | process n => exact plays_tiling hs rfl hc h
  | processBlock xs ys => exact plays_tiling hs rfl hc h
  | setConst key value =>
    obtain ⟨a, ho, hnone⟩ := obey_setConst r key value
    rw [ho]
    simp only [hnone]
    exact ⟨setConst_tiling hs h key value, hsilent _⟩
  | flush =>
    obtain ⟨htiling, hheard⟩ := flush_tiling h
    exact ⟨htiling, Told.nothing hheard _⟩
  | withBlockSize n => exact ⟨⟨h.subscriptions, h.loaded⟩, hsilent _⟩
  | subscribe tag listener =>
    refine ⟨⟨?_, h.loaded⟩, hsilent _⟩
    exact congrArg (ProbeBus.addListener listener tag) h.subscriptions
  | unsubscribe tag =>
    refine ⟨⟨?_, h.loaded⟩, hsilent _⟩
    exact congrArg (List.filter (·.tag ≠ tag)) h.subscriptions
  | _ => exact hcontinues.elim

theorem follow_tiling (hs : Coherent (under [left, right])) {moves : List Move}
    (hcontinues : ∀ m ∈ moves, m.Continues)
    (hc : ∀ i, held (t + i) = Call.settings current
      ((moves.filterMap Move.control?).filterMap Control.call?) i)
    (h : Tiling rate held current t left right bus r) :
    match r.follow moves with
    | .ok (deliveries, r') =>
      (∃ current' bus', Tiling rate held current' (t + Move.total moves) left right bus' r') ∧
        Told rate held left right t (Move.total moves) (fun i => Move.busAt bus moves (i - t))
          deliveries
    | .error _ => Ends rate held left right t (Move.total moves) := by
  -- `Tiling`, at the frame that has been reached, carries the induction
  induction moves generalizing t current bus r with
  | nil => exact ⟨⟨current, bus, h⟩, Told.nothing (fun _ _ _ => rfl) _⟩
  | cons m rest ih =>
    rw [List.forall_mem_cons] at hcontinues
    rw [Move.total_cons]
    have hfirst (i : Nat) (hi : t ≤ i) (hi' : i < t + m.frames) :
        Move.busAt bus (m :: rest) (i - t) = bus := if_pos (by omega)
    have hthen (i : Nat) (hi : t + m.frames ≤ i) : Move.busAt bus (m :: rest) (i - t) =
        Move.busAt (m.leaves bus) rest (i - (t + m.frames)) := by
      rw [Nat.sub_add_eq]
      exact if_neg (by omega)
    cases m with
    | listen subscriptions =>
      have hlisten : Tiling rate held current t left right
          { bus with subscriptions := subscriptions }
          { r with bus := { r.bus with subscriptions := subscriptions } } := ⟨rfl, h.loaded⟩
      have hrest := ih hcontinues.2 hc hlisten
      rw [follow, Move.frames, Nat.zero_add]
      cases hf : follow { r with bus := { r.bus with subscriptions := subscriptions } } rest with
      | error f =>
        rw [hf] at hrest
        exact hrest
      | ok result =>
        rw [hf] at hrest
        exact ⟨hrest.1, hrest.2.congr fun i hi _ => hthen i hi⟩
    | obey c =>
      have hsettings (i : Nat) := @settings_call current c
        (rest.filterMap Move.control?) i
      have hnow : ∀ i < c.frames, held (t + i) = current := fun i hi =>
        (hc i).trans ((hsettings i).trans (if_pos hi))
      have hlater (i : Nat) : held (t + c.frames + i) = Call.settings (c.sets current)
          ((rest.filterMap Move.control?).filterMap Control.call?) i := by
        rw [Nat.add_assoc, hc]
        refine (hsettings _).trans ?_
        rw [if_neg (by omega), Nat.add_sub_cancel_left]
      have hobey := obey_tiling hs hcontinues.1 hnow h
      rw [follow, Move.frames]
      cases ho : r.obey c with
      | error f =>
        rw [ho] at hobey
        obtain ⟨e, he, i, hi, hend⟩ := hobey
        exact ⟨e, he, i, by omega, hend⟩
      | ok result =>
        obtain ⟨a, r'⟩ := result
        rw [ho] at hobey
        obtain ⟨hnext, htold⟩ := hobey
        have hrest := ih hcontinues.2 hlater hnext
        simp only
        cases hf : r'.follow rest with
        | error f =>
          rw [hf] at hrest
          obtain ⟨e, he, i, hi, hend⟩ := hrest
          exact ⟨e, he, c.frames + i, by omega, by rwa [← Nat.add_assoc]⟩
        | ok result =>
          rw [hf] at hrest
          obtain ⟨⟨current', bus', hend⟩, htold'⟩ := hrest
          refine ⟨⟨current', bus', ?_⟩, (htold.congr hfirst).append
            (htold'.congr fun i hi _ => hthen i hi)⟩
          rw [← Nat.add_assoc]
          exact hend

end Renderer

/-! ## Windows in a row -/

/-- The frames that fill a window are the last ones of each. -/
theorem flatMap_full {α : Type} {w : WindowTap} (hpos : 0 < w.size) (f : Nat → List α) (n : Nat) :
    ((List.range n).flatMap fun t => if w.Full t then f t else []) =
      (List.range (n / w.size)).flatMap fun k => f ((k + 1) * w.size - 1) := by
  induction n with
  | zero => rw [Nat.zero_div]; rfl
  | succ n ih =>
    rw [List.range_succ, List.flatMap_append, ih, List.flatMap_singleton]
    have hlt := Nat.mod_lt n hpos
    split
    · next hfull =>
      have hlast := (WindowTap.full_iff hpos n).1 hfull
      have hend : (n / w.size + 1) * w.size = n + 1 := by
        have := Nat.div_add_mod' n w.size
        rw [Nat.add_one_mul]
        omega
      rw [(block_end hlast).2, List.range_succ, List.flatMap_append, List.flatMap_singleton, hend,
        Nat.add_sub_cancel]
    · next hpart =>
      rw [WindowTap.full_iff hpos] at hpart
      rw [(block_inside (by omega : n % w.size + 1 < w.size)).2, List.append_nil]

theorem WindowTap.ending_last {w : WindowTap} (hpos : 0 < w.size) (k : Nat) :
    w.ending ((k + 1) * w.size - 1) = List.range' (k * w.size) w.size := by
  have hend : (k + 1) * w.size - 1 + 1 - w.size = k * w.size := by
    rw [Nat.add_one_mul]
    omega
  rw [ending, hend]

/-- With a single tap under a tag, its windows are heard one after the other. -/
theorem windowsHeard_single {tag : ProbeTag} {roots : List Expr} {e : Expr} {w : WindowTap}
    (single : windowTaps tag roots = [(e, w)]) (hpos : 0 < w.size) (times : Nat → Nat) (n : Nat) :
    windowsHeard tag rate held roots times (List.range n) =
      (List.range (n / w.size)).flatMap fun k =>
        List.replicate (times ((k + 1) * w.size - 1))
          (w.event tag.name (intake rate held (List.range' (k * w.size) w.size) e)) := by
  have hframe (t : Nat) : (windowsAt tag rate held roots t).flatMap (List.replicate (times t)) =
      if w.Full t then List.replicate (times t)
        (w.event tag.name (intake rate held (w.ending t) e)) else [] := by
    rw [windowsAt, single]
    by_cases hfull : w.Full t <;> simp [hfull]
  rw [windowsHeard, funext hframe, flatMap_full hpos]
  simp only [WindowTap.ending_last hpos]

theorem mem_windowTaps {tag : ProbeTag} {roots : List Expr} {e : Expr} {w : WindowTap} :
    (e, w) ∈ windowTaps tag roots ↔
      e ∈ nodesOf roots ∧ e.op.windowTap? = some w ∧ w.tag = tag := by
  simp [windowTaps, and_assoc]

/-- Windows lie end to end. Whatever a host does after loading two roots, for `n` frames in all and
with any subscriptions at any time, a listener hears of every frame just the windows it fills, each
as often as the listener is subscribed at that frame. A tap that has its tag to itself is heard of
`n / size` windows at most: those at whose last frame someone was subscribed, the one at `k` with
what the tap took in from frame `k * size` to frame `(k + 1) * size - 1`. In the end a window holds
what came after the last full one, which is never as much as fills it. -/
theorem windows_tile {r r₁ : Renderer} (shared : Coherent (under [left, right]))
    (loaded : r.load left right = .ok r₁) {moves : List Move}
    (continues : ∀ m ∈ moves, m.Continues) :
    ((∃ deliveries r₂, r₁.follow moves = .ok (deliveries, r₂)) ↔
      ∀ e ∈ under [left, right], ∀ t < Move.total moves,
        (e.stream r.sampleRate (Move.settings moves) t).isSome) ∧
    ∀ deliveries r₂, r₁.follow moves = .ok (deliveries, r₂) →
      (∀ listener tag, tag.kind ≠ .meter → heardBy listener tag deliveries =
        windowsHeard tag r.sampleRate (Move.settings moves) [left, right]
          (fun t => (Move.busAt r.bus moves t).times listener tag)
          (List.range (Move.total moves))) ∧
      (∀ listener tag e w, windowTaps tag [left, right] = [(e, w)] →
        0 < w.size ∧ heardBy listener tag deliveries =
          (List.range (Move.total moves / w.size)).flatMap fun k =>
            List.replicate
              ((Move.busAt r.bus moves ((k + 1) * w.size - 1)).times listener tag)
              (w.event tag.name (intake r.sampleRate (Move.settings moves)
                (List.range' (k * w.size) w.size) e))) ∧
      (∀ e ∈ under [left, right], ∀ frames : List Nat, (∀ t ∈ frames, t < Move.total moves) →
        (intake r.sampleRate (Move.settings moves) frames e).map some =
          frames.map fun t => argument r.sampleRate (Move.settings moves) t e 0) ∧
      ∃ l, r₂.loaded = some l ∧
        Laid (Kernel.Gathers r.sampleRate (Move.settings moves) (Move.total moves)) r.sampleRate
          left right l.program ∧
        ∀ c ∈ l.program.cells, ∀ name size samples,
          c.kernel = .scope name size samples ∨ c.kernel = .fft name size samples →
            samples.size < size := by
  have htiling : Tiling r.sampleRate (Move.settings moves) (fun _ => none) 0 left right r₁.bus r₁ :=
    Renderer.load_tiling loaded
  have hbus : r₁.bus = r.bus := by
    obtain ⟨p, -, rfl⟩ := Renderer.load_eq loaded
    rfl
  have hfollow := Renderer.follow_tiling shared continues
    (fun i => by rw [Nat.zero_add, Move.settings, settingsOf]) htiling
  rw [Nat.zero_add] at hfollow
  refine ⟨?_, fun deliveries r₂ hrun => ?_⟩
  · cases hrun : r₁.follow moves with
    | error f =>
      rw [hrun] at hfollow
      obtain ⟨e, he, t, ht, hend⟩ := hfollow
      constructor
      · rintro ⟨deliveries, r₂, ⟨⟩⟩
      · intro hall
        have hgo := hall e he t ht
        rw [Nat.zero_add] at hend
        rw [hend] at hgo
        cases hgo
    | ok result =>
      rw [hrun] at hfollow
      refine ⟨fun _ e he t ht => ?_, fun _ => ⟨result.1, result.2, rfl⟩⟩
      have := hfollow.2.goes e he t ht
      rwa [Nat.zero_add] at this
  · rw [hrun] at hfollow
    obtain ⟨⟨current, bus, -, l, hl, hlaid⟩, htold⟩ := hfollow
    have hheard (listener : Nat) (tag : ProbeTag) (kind : tag.kind ≠ .meter) :
        heardBy listener tag deliveries =
          windowsHeard tag r.sampleRate (Move.settings moves) [left, right]
            (fun t => (Move.busAt r.bus moves t).times listener tag)
            (List.range (Move.total moves)) := by
      rw [htold.heard listener tag kind, hbus, List.range_eq_range']
      simp only [Nat.sub_zero]
    have hgathers := hlaid.imp fun _ _ hk => hk.gathers
    refine ⟨hheard, fun listener tag e w single => ?_, fun e he frames hframes => ?_, l, hl,
      hgathers, fun c hc name size samples hk => ?_⟩
    · obtain ⟨he, hw, rfl⟩ := mem_windowTaps.1 (single ▸ List.mem_singleton.2 rfl :
        (e, w) ∈ windowTaps tag [left, right])
      obtain ⟨k, hk⟩ := hgathers.node he
      rw [Kernel.Gathers.eq_def, hw] at hk
      refine ⟨hk.1, ?_⟩
      rw [hheard listener w.tag (Kernel.windowTap_kind hw), windowsHeard_single single hk.1]
    · exact intake_some (fun e he t ht => by
        have := htold.goes e he t ht
        rwa [Nat.zero_add] at this) he hframes
    · rcases hgathers.cell hc with rfl | ⟨e, he⟩
      · rcases hk with hk | hk <;> cases hk
      · exact he.room hk

/-- A dial with a scope on it that shows two samples at a time. -/
def scopedDial : Expr := .node ⟨.free, 1⟩ (.tap (.scope "s" 2)) none [dial]

theorem coherent_scoped : Coherent (under [scopedDial, dial]) :=
  coherent_of_subset [dial, scopedDial] (by decide) (by simp [partsAll, parts, dial, scopedDial])

/-- Seven frames, with the dial turned up and a flush in the first window. The listener is gone
during the second one and comes back in the middle of the third. -/
def comings : List Move :=
  [.listen [⟨⟨.scope, "s"⟩, [7]⟩], .obey (.process 1), .obey .flush, .obey (.setConst "dial" 3.0),
    .obey (.process 1), .listen [], .obey (.withBlockSize 3), .obey (.process 3),
    .obey (.subscribe ⟨.scope, "s"⟩ 7), .obey (.process 2)]

theorem windows_tile_comings : ∃ (r₁ r₂ : Renderer) (deliveries : List Delivery),
    Renderer.load ⟨48000.0, 2, 0, none, .empty, 0⟩ scopedDial dial = .ok r₁ ∧
    r₁.follow comings = .ok (deliveries, r₂) ∧
    heardBy 7 ⟨.scope, "s"⟩ deliveries = [.scope "s" [1.0, 3.0], .scope "s" [3.0, 3.0]] := by
  have hload : Renderer.load ⟨48000.0, 2, 0, none, .empty, 0⟩ scopedDial dial = .ok _ := rfl
  have hcontinues : ∀ m ∈ comings, m.Continues := by
    simp [comings, Move.Continues, Control.Continues]
  obtain ⟨-, htile⟩ := windows_tile coherent_scoped hload hcontinues
  obtain ⟨-, hsingle, -⟩ := htile _ _ rfl
  obtain ⟨-, hheard⟩ := hsingle 7 ⟨.scope, "s"⟩ scopedDial _ rfl
  exact ⟨_, _, _, rfl, rfl, hheard⟩

end Patchbay
