import Mathlib
import Patchbay.Proofs.Session
import Patchbay.Proofs.Tap
import Patchbay.Proofs.Voice

/-!
# Taps cannot be heard

A tap gives what it takes in, frame by frame. So taps can be taken out of two roots in any number,
each leaving its input in its place, and the samples are the same, whoever listens to those that
are left. What else hung on a tap goes with it: it cannot be heard, but it may have been what
stopped a run.
-/

set_option autoImplicit false

namespace Patchbay

open Patchbay.Expr

variable {rate : Float32} {held : Settings} {gone : Label → Bool} {left right : Expr}

namespace Expr

/-! ## Taking taps out -/

mutual

/-- Takes out the taps under some labels. -/
def erase (gone : Label → Bool) : Expr → Expr
  | node l op key cs =>
    if gone l && op.tap?.isSome then input l (eraseAll gone cs)
    else node l op key (eraseAll gone cs)

def eraseAll (gone : Label → Bool) : List Expr → List Expr
  | [] => []
  | c :: cs => erase gone c :: eraseAll gone cs

end

theorem stream_input {l : Label} {cs cs' : List Expr}
    (h : streams rate held cs = streams rate held cs') :
    (input l cs).stream rate held = (input l cs').stream rate held := by
  cases cs with
  | nil =>
    cases cs' with
    | nil => rfl
    | cons c' cs' => cases h
  | cons c cs =>
    cases cs' with
    | nil => cases h
    | cons c' cs' => exact (List.cons.inj h).1

theorem exists_tap {op : Op} (h : op.tap?.isSome) : ∃ t, op = .tap t := by
  cases op with
  | tap t => exact ⟨t, rfl⟩
  | _ => cases h

mutual

theorem stream_erase (e : Expr) (h : ∀ f ∈ parts e, f.op.HasWindow) :
    (erase gone e).stream rate held = e.stream rate held := by
  obtain ⟨l, op, key, cs⟩ := e
  rw [parts, List.forall_mem_cons] at h
  have hcs := streams_eraseAll cs h.2
  rw [erase]
  split
  · next hgone =>
    obtain ⟨t, rfl⟩ := exists_tap (Bool.and_eq_true_iff.1 hgone).2
    rw [stream_tap h.1, stream_input hcs]
  · rw [stream, stream, hcs]

theorem streams_eraseAll (cs : List Expr) (h : ∀ f ∈ partsAll cs, f.op.HasWindow) :
    streams rate held (eraseAll gone cs) = streams rate held cs := by
  match cs with
  | [] => rfl
  | c :: cs =>
    rw [partsAll, List.forall_mem_append] at h
    rw [eraseAll, streams, streams, stream_erase c h.1, streams_eraseAll cs h.2]

end

/-- A node of what is left, and the node it was: the operation is the same, unless a zero was put
in the place of a tap. -/
structure Left (gone : Label → Bool) (f p : Expr) : Prop where
  erased : p = erase gone f
  label : p.label = f.label
  setup : p.op = f.op ∧ p.key = f.key ∨ p.op = .const 0.0

mutual

theorem mem_parts_erase (e p : Expr) (h : p ∈ parts (erase gone e)) :
    ∃ f ∈ parts e, Left gone f p := by
  obtain ⟨l, op, key, cs⟩ := e
  rw [erase] at h
  split at h
  · next hgone =>
    cases cs with
    | nil =>
      have hp : p = node l (.const 0.0) none [] := by
        simpa [eraseAll, input, parts, partsAll] using h
      refine ⟨_, mem_parts _, ?_, by rw [hp]; rfl, .inr (by rw [hp]; rfl)⟩
      rw [hp, erase, if_pos hgone]
      rfl
    | cons c cs =>
      obtain ⟨f, hf, hleft⟩ := mem_parts_erase c p h
      refine ⟨f, ?_, hleft⟩
      rw [parts, partsAll]
      exact List.mem_cons_of_mem _ (List.mem_append_left _ hf)
  · next hkept =>
    rw [parts, List.mem_cons] at h
    rcases h with rfl | h
    · refine ⟨_, mem_parts _, ?_, rfl, .inl ⟨rfl, rfl⟩⟩
      rw [erase, if_neg hkept]
    · obtain ⟨f, hf, hleft⟩ := mem_partsAll_eraseAll cs p h
      exact ⟨f, by rw [parts]; exact List.mem_cons_of_mem _ hf, hleft⟩

theorem mem_partsAll_eraseAll (cs : List Expr) (p : Expr) (h : p ∈ partsAll (eraseAll gone cs)) :
    ∃ f ∈ partsAll cs, Left gone f p := by
  match cs with
  | [] => simp [eraseAll, partsAll] at h
  | c :: cs =>
    rw [eraseAll, partsAll, List.mem_append] at h
    rw [partsAll]
    rcases h with h | h
    · obtain ⟨f, hf, hleft⟩ := mem_parts_erase c p h
      exact ⟨f, List.mem_append_left _ hf, hleft⟩
    · obtain ⟨f, hf, hleft⟩ := mem_partsAll_eraseAll cs p h
      exact ⟨f, List.mem_append_right _ hf, hleft⟩

end

theorem coherent_erase (roots : List Expr) (h : Coherent (under roots)) :
    Coherent (under (eraseAll gone roots)) := by
  intro p hp q hq heq
  obtain ⟨f, hf, hpf⟩ := mem_partsAll_eraseAll roots p hp
  obtain ⟨g, hg, hqg⟩ := mem_partsAll_eraseAll roots q hq
  have hfg : f = g := h hf hg (by rw [← hpf.label, ← hqg.label, heq])
  rw [hpf.erased, hqg.erased, hfg]

/-- Nothing but its input hangs on the node, if it is a tap that is taken out. -/
def Lone (gone : Label → Bool) (e : Expr) : Prop :=
  gone e.label = true → e.op.tap?.isSome → e.children.length ≤ 1

mutual

/-- Where each tap has one input, nothing but taps is lost. -/
theorem erase_mem_parts (e : Expr) (h : ∀ f ∈ parts e, f.Lone gone) :
    ∀ f ∈ parts e, erase gone f ∈ parts (erase gone e) := by
  obtain ⟨l, op, key, cs⟩ := e
  rw [parts, List.forall_mem_cons] at h
  have hcs := eraseAll_mem_partsAll cs h.2
  rw [parts, List.forall_mem_cons]
  refine ⟨mem_parts _, fun f hf => ?_⟩
  have hmem := hcs f hf
  rw [erase]
  split
  · next hgone =>
    have hlone := h.1 (Bool.and_eq_true_iff.1 hgone).1 (Bool.and_eq_true_iff.1 hgone).2
    rw [children] at hlone
    match cs with
    | [] => simp [partsAll] at hf
    | [c] => simpa [eraseAll, partsAll, input] using hmem
    | c :: d :: cs => simp at hlone
  · rw [parts]
    exact List.mem_cons_of_mem _ hmem

theorem eraseAll_mem_partsAll (cs : List Expr) (h : ∀ f ∈ partsAll cs, f.Lone gone) :
    ∀ f ∈ partsAll cs, erase gone f ∈ partsAll (eraseAll gone cs) := by
  match cs with
  | [] => simp [partsAll]
  | c :: cs =>
    rw [partsAll, List.forall_mem_append] at h
    rw [partsAll, List.forall_mem_append, eraseAll, partsAll]
    exact ⟨fun f hf => List.mem_append_left _ (erase_mem_parts c h.1 f hf),
      fun f hf => List.mem_append_right _ (eraseAll_mem_partsAll cs h.2 f hf)⟩

end

end Expr

/-! ## Whoever listens -/

namespace Kernel

theorem setConst_voice (v : Float32) (k : Kernel) : (k.setConst v).voice = k.voice.setConst v := by
  cases k <;> rfl

end Kernel

namespace Program

theorem setConst_voice (p : Program) (key : String) (value : Float32) :
    (p.setConst key value).voice = p.voice.setConst key value := by
  have hcells (slots : List Nat) : (p.cells.mapIdx fun i c => if i ∈ slots then
      { c with kernel := c.kernel.setConst value } else c).map Cell.voice =
      (p.cells.map Cell.voice).mapIdx fun i c => if i ∈ slots then
        { c with kernel := c.kernel.setConst value } else c := by
    refine List.ext_getElem? fun i => ?_
    rw [List.getElem?_map, List.getElem?_mapIdx, List.getElem?_mapIdx, List.getElem?_map,
      Option.map_map, Option.map_map]
    refine Option.map_congr fun c _ => ?_
    rw [Function.comp_apply, Function.comp_apply]
    split
    · simp only [Cell.voice, Kernel.setConst_voice]
    · rfl
  rw [setConst_eq, setConst_eq, voice, voice]
  exact congrArg (fun cells => { p with cells := cells }) (hcells (p.slotsOf key))

end Program

namespace Renderer

/-- The same renderer with another bus. -/
def withBus (r : Renderer) (bus : ProbeBus) : Renderer := { r with bus := bus }

/-- The samples during some calls, the bus being what the host makes of it before each of them. -/
def playUnder (r : Renderer) : List (ProbeBus × Call) → Except KernelFault Stereo
  | [] => .ok .empty
  | (_, .setConst key value) :: rest => ((r.setConst? key value).getD r).playUnder rest
  | (bus, .process n) :: rest =>
    match (r.withBus bus).process n with
    | .error f => .error f
    | .ok (heard, r) => (r.playUnder rest).map heard.value.append

theorem setConst_alike {r r' : Renderer} (h : r.voice = r'.voice) (key : String)
    (value : Float32) :
    ((r.setConst? key value).getD r).voice = ((r'.setConst? key value).getD r').voice := by
  cases hl : r.loaded with
  | none =>
    cases hl' : r'.loaded with
    | none => simp [setConst?, hl, hl', voice]
    | some l' => simp [voice, hl, hl'] at h
  | some l =>
    cases hl' : r'.loaded with
    | none => simp [voice, hl, hl'] at h
    | some l' =>
      have hprogram : l.program.voice = l'.program.voice := by simpa [voice, hl, hl'] using h
      obtain ⟨m, hm, hset⟩ := setConst_loaded hl key value
      obtain ⟨m', hm', hset'⟩ := setConst_loaded hl' key value
      rw [voice, voice, hm, hm', Option.map_some, Option.map_some, hset, hset',
        Program.setConst_voice, Program.setConst_voice, hprogram]

/-- Listeners make no difference to the samples, nor does it when they come and go. -/
theorem playUnder_eq {r r' : Renderer} (h : r.voice = r'.voice) (script : List (ProbeBus × Call)) :
    r.playUnder script = r'.play (script.map Prod.snd) := by
  induction script generalizing r r' with
  | nil => rfl
  | cons first script ih =>
    obtain ⟨bus, call⟩ := first
    rw [List.map_cons]
    cases call with
    | setConst key value => exact ih (setConst_alike h key value)
    | process n =>
      have hbus : (r.withBus bus).voice = r'.voice := h
      rw [playUnder, play]
      rcases map_eq_map (process_alike hbus n)
        with ⟨e, hp, hp'⟩ | ⟨result, result', hp, hp', heq⟩
      · rw [hp, hp']
      · rw [Prod.mk.injEq] at heq
        rw [hp, hp']
        simp only [ih heq.2, heq.1]

end Renderer

/-! ## Two renderers -/

theorem hasWindow_of_build (shared : Coherent (under [left, right]))
    (h : ∃ p, Program.build left right rate = .ok p) :
    ∀ e ∈ under [left, right], e.op.HasWindow := by
  intro e he
  obtain ⟨k, hk⟩ := (build_ok_iff shared).1 h e he
  exact Kernel.hasWindow_of_setup hk

/-- What is left has a kernel wherever all was left of has one. -/
theorem build_erase (shared : Coherent (under [left, right]))
    (h : ∃ p, Program.build left right rate = .ok p) :
    ∃ p, Program.build (erase gone left) (erase gone right) rate = .ok p := by
  rw [build_ok_iff shared] at h
  refine (build_ok_iff (coherent_erase [left, right] shared)).2 fun p hp => ?_
  obtain ⟨f, hf, hleft⟩ := mem_partsAll_eraseAll [left, right] p hp
  rcases hleft.setup with ⟨hop, hkey⟩ | hop
  · rw [hop, hkey]
    exact h f hf
  · rw [hop]
    exact ⟨_, rfl⟩

theorem build_of_erase (shared : Coherent (under [left, right]))
    (windows : ∀ e ∈ under [left, right], e.op.HasWindow)
    (lone : ∀ e ∈ under [left, right], e.Lone gone)
    (h : ∃ p, Program.build (erase gone left) (erase gone right) rate = .ok p) :
    ∃ p, Program.build left right rate = .ok p := by
  rw [build_ok_iff (coherent_erase [left, right] shared)] at h
  refine (build_ok_iff shared).2 fun f hf => ?_
  have hmem := eraseAll_mem_partsAll [left, right] lone f hf
  obtain ⟨l, op, key, cs⟩ := f
  rw [erase] at hmem
  split at hmem
  · next hgone =>
    obtain ⟨t, rfl⟩ := exists_tap (Bool.and_eq_true_iff.1 hgone).2
    obtain ⟨k, hk, -⟩ := Kernel.setup_passes rate (windows _ hf) key
    exact ⟨k, hk⟩
  · exact h (node l op key (eraseAll gone cs)) hmem

theorem echoes_erase (windows : ∀ e ∈ under [left, right], e.op.HasWindow) :
    Echoes rate left right (erase gone left) (erase gone right) := by
  have hstream (e : Expr) (he : e ∈ under [left, right]) (held : Settings) :
      (erase gone e).stream rate held = e.stream rate held :=
    stream_erase e fun f hf => windows f (partsAll_trans _ _ he hf)
  refine ⟨hstream left ?_, hstream right ?_, fun p hp => ?_⟩
  · simp [under, partsAll, mem_parts]
  · simp [under, partsAll, mem_parts]
  · obtain ⟨f, hf, hleft⟩ := mem_partsAll_eraseAll [left, right] p hp
    exact ⟨f, hf, fun held => by rw [hleft.erased, hstream f hf]⟩

theorem echoes_of_erase (windows : ∀ e ∈ under [left, right], e.op.HasWindow)
    (lone : ∀ e ∈ under [left, right], e.Lone gone) :
    Echoes rate (erase gone left) (erase gone right) left right := by
  have hecho : Echoes rate left right (erase gone left) (erase gone right) := echoes_erase windows
  refine ⟨fun held => (hecho.onLeft held).symm, fun held => (hecho.onRight held).symm,
    fun f hf => ⟨erase gone f, eraseAll_mem_partsAll [left, right] lone f hf, fun held => ?_⟩⟩
  exact (stream_erase f fun g hg => windows g (partsAll_trans _ _ hf hg)).symm

/-- Taps cannot be heard: without some of them two roots are loaded wherever they are loaded with
them, and whatever is played and set, and whoever listens, the samples are the same. If all windows
can be had and nothing but its input hangs on a tap that is taken out, there is no difference at
all, not even in what is refused or stops. -/
theorem play_erase (shared : Coherent (under [left, right])) (gone : Label → Bool)
    {r s : Renderer} (sameRate : s.sampleRate = r.sampleRate) :
    (∀ r', r.load left right = .ok r' →
      ∃ s', s.load (erase gone left) (erase gone right) = .ok s' ∧
        ∀ script script' out, script'.map Prod.snd = script.map Prod.snd →
          r'.playUnder script = .ok out → s'.playUnder script' = .ok out) ∧
    ((∀ e ∈ under [left, right], e.op.HasWindow) → (∀ e ∈ under [left, right], e.Lone gone) →
      ∀ s', s.load (erase gone left) (erase gone right) = .ok s' →
        ∃ r', r.load left right = .ok r' ∧
          ∀ script script', script'.map Prod.snd = script.map Prod.snd →
            s'.playUnder script' = r'.playUnder script) := by
  have shared' : Coherent (under (eraseAll gone [left, right])) :=
    coherent_erase [left, right] shared
  constructor
  · intro r' h
    have hwhole := (load_ok_iff r).1 ⟨r', h⟩
    have windows := hasWindow_of_build shared hwhole
    have hbuild : ∃ p, Program.build (erase gone left) (erase gone right) r.sampleRate = .ok p :=
      build_erase shared hwhole
    rw [← sameRate] at hbuild
    obtain ⟨s', h'⟩ := (load_ok_iff s).2 hbuild
    refine ⟨s', h', fun script script' out hcalls hp => ?_⟩
    rw [Renderer.playUnder_eq rfl] at hp ⊢
    rw [hcalls]
    exact play_echo sameRate shared shared' (echoes_erase windows) h h' hp
  · intro windows lone s' h'
    have hbuild := build_of_erase shared windows lone ((load_ok_iff s).1 ⟨s', h'⟩)
    rw [sameRate] at hbuild
    obtain ⟨r', h⟩ := (load_ok_iff r).2 hbuild
    refine ⟨r', h, fun script script' hcalls => ?_⟩
    rw [Renderer.playUnder_eq rfl, Renderer.playUnder_eq rfl, hcalls]
    exact play_agree sameRate shared shared' (echoes_erase windows)
      (echoes_of_erase windows lone) h h' _

/-- A dial behind two taps, and its sum with a tap that nothing feeds. -/
def meteredDial : Expr := .node ⟨.free, 1⟩ (.tap (.meter "m")) none [dial]

def tappedDial : Expr := .node ⟨.free, 2⟩ (.tap (.scope "s" 2)) none [meteredDial]

def openTap : Expr := .node ⟨.free, 3⟩ (.tap (.fft "f" 4)) none []

def tappedSum : Expr := .node ⟨.free, 4⟩ (.binary .add) none [tappedDial, openTap]

theorem mem_tapped {e : Expr} (h : e ∈ under [tappedDial, tappedSum]) :
    e ∈ [dial, meteredDial, tappedDial, openTap, tappedSum] := by
  simp only [under, partsAll, parts, dial, meteredDial, tappedDial, openTap, tappedSum,
    Set.mem_ofPred_eq, List.append_nil, List.cons_append, List.nil_append, List.mem_cons,
    List.not_mem_nil, or_false] at h ⊢
  tauto

theorem coherent_tapped : Coherent (under [tappedDial, tappedSum]) :=
  coherent_of_subset [dial, meteredDial, tappedDial, openTap, tappedSum] (by decide)
    fun _ => mem_tapped

theorem hasWindow_tapped : ∀ e ∈ under [tappedDial, tappedSum], e.op.HasWindow := by
  intro e he
  have := mem_tapped he
  simp only [List.mem_cons, List.not_mem_nil, or_false] at this
  rcases this with rfl | rfl | rfl | rfl | rfl
  · trivial
  · trivial
  · exact ⟨by decide, by decide⟩
  · exact ⟨by decide, by decide⟩
  · trivial

theorem lone_tapped : ∀ e ∈ under [tappedDial, tappedSum], e.Lone gone := by
  intro e he _ htap
  have := mem_tapped he
  simp only [List.mem_cons, List.not_mem_nil, or_false] at this
  rcases this with rfl | rfl | rfl | rfl | rfl
  · cases htap
  · exact Nat.le_refl 1
  · exact Nat.le_refl 1
  · exact Nat.zero_le 1
  · cases htap

/-- Without the taps the samples are soon told; with them, and somebody listening, they are the
same. -/
theorem play_erase_tapped : ∃ r' s' : Renderer,
    Renderer.load ⟨48000.0, 2, 0, none, .empty, 0⟩ tappedDial tappedSum = .ok r' ∧
    Renderer.load ⟨48000.0, 512, 0, none, .empty, 0⟩ (erase (fun _ => true) tappedDial)
      (erase (fun _ => true) tappedSum) = .ok s' ∧
    r'.playUnder [(.empty, .setConst "dial" 3.0), (ProbeBus.empty.subscribe ⟨.scope, "s"⟩ 0,
      .process 2)] = .ok ⟨#[3.0, 3.0], #[3.0, 3.0]⟩ ∧
    s'.playUnder [(.empty, .setConst "dial" 3.0), (.empty, .process 2)] =
      .ok ⟨#[3.0, 3.0], #[3.0, 3.0]⟩ := by
  obtain ⟨hload, hback⟩ := play_erase coherent_tapped (fun _ => true)
    (r := ⟨48000.0, 2, 0, none, .empty, 0⟩) (s := ⟨48000.0, 512, 0, none, .empty, 0⟩) rfl
  have hbare : ∃ s', Renderer.load ⟨48000.0, 512, 0, none, .empty, 0⟩
      (erase (fun _ => true) tappedDial) (erase (fun _ => true) tappedSum) = .ok s' ∧
      s'.playUnder [(.empty, .setConst "dial" 3.0), (.empty, .process 2)] =
        .ok ⟨#[3.0, 3.0], #[3.0, 3.0]⟩ := ⟨_, rfl, rfl⟩
  obtain ⟨bare, hs, hheard⟩ := hbare
  obtain ⟨r', hr', hsame⟩ := hback hasWindow_tapped lone_tapped bare hs
  rw [hsame [(.empty, .setConst "dial" 3.0), (ProbeBus.empty.subscribe ⟨.scope, "s"⟩ 0,
    .process 2)] [(.empty, .setConst "dial" 3.0), (.empty, .process 2)] rfl] at hheard
  obtain ⟨s', hs', hplay⟩ := hload r' hr'
  exact ⟨r', s', hr', hs', hheard, hplay _ _ _ (by rfl) hheard⟩

end Patchbay
