import Mathlib
import Patchbay.Proofs.Playback

/-!
# Playing a pair of expressions

A host loads two roots and then asks for frames and sets constants in any order. What it hears are
the streams of the roots under the values that were set before each frame, however the calls are
divided and however the nodes under the roots are shared.
-/

set_option autoImplicit false

namespace Patchbay

open Patchbay.Expr

variable {rate : Float32} {held : Settings} {current : String → Option Float32}
variable {left right : Expr}

/-- What a host does with a loaded renderer. -/
inductive Call where
  | process (frames : Nat)
  | setConst (key : String) (value : Float32)

namespace Call

/-- The number of frames that some calls ask for. -/
def frames : List Call → Nat
  | [] => 0
  | process n :: rest => n + frames rest
  | setConst _ _ :: rest => frames rest

/-- What is set at each of these frames if the calls find `current`. -/
def settings : (String → Option Float32) → List Call → Settings
  | current, [], _ => current
  | current, process n :: rest, t =>
    if t < n then current else settings current rest (t - n)
  | current, setConst key value :: rest, t =>
    settings (Function.update current key (some value)) rest t

end Call

namespace Renderer

/-- All that is heard during some calls. A key that nothing carries is passed over. -/
def play (r : Renderer) : List Call → Except KernelFault Stereo
  | [] => .ok .empty
  | .setConst key value :: rest => ((r.setConst? key value).getD r).play rest
  | .process n :: rest =>
    match r.process n with
    | .error f => .error f
    | .ok (heard, r) => (r.play rest).map heard.value.append

end Renderer

namespace Program

theorem constKey?_of_const {e : Expr} {v : Float32} (h : e.op = .const v) :
    constKey? e = e.key := by
  rw [constKey?, h]
  cases e.key <;> rfl

theorem constKey?_of_ne {e : Expr} (h : ∀ v, e.op ≠ .const v) : constKey? e = none := by
  rw [constKey?]
  split
  · next ho _ => exact absurd ho (h _)
  · rfl

theorem slotOf_getElem {nodes : List Expr} (hlist : Listed nodes) (i : Nat)
    (hi : i < nodes.length) : slotOf nodes nodes[i] = i + 1 := by
  have hn : nodes = nodes.take i ++ nodes[i] :: nodes.drop (i + 1) := by simp
  rw [slotOf_of_split hn (hlist _ _ _ hn).2, List.length_take, Nat.min_eq_left (by omega)]

theorem slotsOf_eq {nodes : List Expr} {p : Program} (hp : p.constants = keyedSlots nodes)
    (key : String) :
    p.slotsOf key = (nodes.filter fun e => constKey? e = some key).map (slotOf nodes) := by
  have hslots (es : List Expr) :
      ((es.filterMap fun e => (constKey? e).map fun k => (k, slotOf nodes e)).filter
        (·.1 = key)).map Prod.snd =
        (es.filter fun e => constKey? e = some key).map (slotOf nodes) := by
    induction es with
    | nil => rfl
    | cons e es ih =>
      rw [List.filterMap_cons, List.filter_cons]
      cases hk : constKey? e with
      | none => simpa using ih
      | some k => by_cases h : k = key <;> simpa [h] using ih
  rw [slotsOf, hp, keyedSlots, hslots]

/-- A key stands for the slots of the constants that have it. -/
theorem mem_slotsOf_iff {nodes : List Expr} {p : Program} (hp : p.constants = keyedSlots nodes)
    (key : String) (slot : Nat) :
    slot ∈ p.slotsOf key ↔ ∃ e ∈ nodes, constKey? e = some key ∧ slotOf nodes e = slot := by
  simp only [slotsOf_eq hp, List.mem_map, List.mem_filter, decide_eq_true_eq, and_assoc]

theorem mem_slotsOf {nodes : List Expr} (hlist : Listed nodes) {p : Program}
    (hp : p.constants = keyedSlots nodes) (key : String) (i : Nat) (hi : i < nodes.length) :
    i + 1 ∈ p.slotsOf key ↔ constKey? nodes[i] = some key := by
  rw [mem_slotsOf_iff hp]
  constructor
  · rintro ⟨e, he, hk, hslot⟩
    obtain ⟨j, hj, rfl⟩ := List.getElem_of_mem he
    rw [slotOf_getElem hlist j hj, Nat.add_right_cancel_iff] at hslot
    subst hslot
    exact hk
  · intro hk
    exact ⟨_, List.getElem_mem hi, hk, slotOf_getElem hlist i hi⟩

theorem zero_not_mem_slotsOf {nodes : List Expr} (hlist : Listed nodes) {p : Program}
    (hp : p.constants = keyedSlots nodes) (key : String) : 0 ∉ p.slotsOf key := by
  rw [mem_slotsOf_iff hp]
  rintro ⟨e, he, -, hslot⟩
  obtain ⟨j, hj, rfl⟩ := List.getElem_of_mem he
  rw [slotOf_getElem hlist j hj] at hslot
  omega

theorem setConst_setConst (k : Kernel) (v w : Float32) :
    (k.setConst v).setConst w = k.setConst w := by
  cases k <;> rfl

theorem setSlots_eq (value : Float32) (slots : List Nat) (cells : List Cell) :
    slots.foldl (fun cells slot => setSlot value slot cells) cells = cells.mapIdx fun i c =>
      if i ∈ slots then { c with kernel := c.kernel.setConst value } else c := by
  induction slots generalizing cells with
  | nil => exact List.ext_getElem? (by simp)
  | cons slot slots ih =>
    rw [List.foldl_cons, ih]
    apply List.ext_getElem?
    intro i
    simp only [List.getElem?_mapIdx, setSlot, List.getElem?_modify, List.mem_cons]
    by_cases h : slot = i <;> by_cases h' : i ∈ slots <;> cases cells[i]? <;>
      simp [h, h', setConst_setConst, eq_comm]

theorem setConst_eq (p : Program) (key : String) (value : Float32) :
    p.setConst key value = { p with
      cells := p.cells.mapIdx fun i c =>
        if i ∈ p.slotsOf key then { c with kernel := c.kernel.setConst value } else c } := by
  rw [← setSlots_eq, setConst, setConst?]
  cases p.slotsOf key <;> rfl

theorem setConst_values (p : Program) (key : String) (value : Float32) :
    (p.setConst key value).values = p.values := by
  rw [setConst_eq]

end Program

theorem bind_update (key? : Option String) (current : String → Option Float32) (key : String)
    (value : Float32) :
    key?.bind (Function.update current key (some value)) =
      if key? = some key then some value else key?.bind current := by
  cases key? with
  | none => rfl
  | some key' => simp [Function.update_apply]

theorem const_set {e : Expr} {v : Float32} (op : e.op = .const v)
    (current : String → Option Float32) (key : String) (value : Float32) :
    (if Program.constKey? e = some key
      then (Kernel.const ((e.key.bind current).getD v)).setConst value
      else .const ((e.key.bind current).getD v)) =
      .const ((e.key.bind (Function.update current key (some value))).getD v) := by
  rw [Program.constKey?_of_const op, bind_update]
  by_cases h : e.key = some key
  · rw [if_pos h, if_pos h]
    rfl
  · rw [if_neg h, if_neg h]

theorem runs_set {t : Nat} {e : Expr} {k : Kernel} (h : Runs rate held current t e k)
    (key : String) (value : Float32) :
    Runs rate held (Function.update current key (some value)) t e
      (if Program.constKey? e = some key then k.setConst value else k) := by
  cases h with
  | const v op =>
    rw [const_set op]
    exact .const v op
  | kernel fresh now k op setup before voice =>
    rw [if_neg (by simp [Program.constKey?_of_ne op])]
    exact .kernel fresh now k op setup before voice

/-- What setting a constant does to the cells, node by node. -/
theorem forall₂_setConst {nodes : List Expr} (hlist : Listed nodes) {p : Program}
    (hconst : p.constants = Program.keyedSlots nodes) {S S' : Expr → Cell → Prop}
    {tail : List Cell} (h : List.Forall₂ S nodes tail) (key : String) (value : Float32)
    (hset : ∀ e c, S e c → S' e (if Program.constKey? e = some key then
      { c with kernel := c.kernel.setConst value } else c)) :
    List.Forall₂ S' nodes (tail.mapIdx fun i c => if i + 1 ∈ p.slotsOf key then
      { c with kernel := c.kernel.setConst value } else c) := by
  rw [List.forall₂_iff_get] at h ⊢
  obtain ⟨hlen, hget⟩ := h
  refine ⟨by rw [hlen, List.length_mapIdx], fun i h₁ h₂ => ?_⟩
  have hi := hset _ _ (hget i h₁ (hlen ▸ h₁))
  simp only [List.get_eq_getElem, List.getElem_mapIdx,
    Program.mem_slotsOf hlist hconst key i h₁] at hi ⊢
  exact hi

theorem setConst_playing (hs : Coherent (under [left, right])) {t : Nat} {p : Program}
    (h : Playing rate held current t left right p) (key : String) (value : Float32) :
    Playing rate held (Function.update current key (some value)) t left right
      (p.setConst key value) := by
  have hlist := listed_nodesOf _ hs
  obtain ⟨⟨tail, hcells, htail⟩, hvalues, hconst, hleft, hright, hrate⟩ := h
  rw [Program.setConst_eq]
  refine ⟨⟨tail.mapIdx fun i c => if i + 1 ∈ p.slotsOf key then
    { c with kernel := c.kernel.setConst value } else c, ?_, ?_⟩, hvalues, hconst, hleft, hright,
    hrate⟩
  · rw [hcells, List.mapIdx_cons, if_neg (Program.zero_not_mem_slotsOf hlist hconst key)]
  · apply forall₂_setConst hlist hconst htail key value
    intro e c hc
    have hset := runs_set hc.runs key value
    split
    · next hk => exact ⟨hc.args, by rwa [if_pos hk] at hset⟩
    · next hk => exact ⟨hc.args, by rwa [if_neg hk] at hset⟩

namespace Renderer

theorem setConst_loaded {r : Renderer} {l : Loaded} (h : r.loaded = some l) (key : String)
    (value : Float32) :
    ∃ l', ((r.setConst? key value).getD r).loaded = some l' ∧
      l'.program = l.program.setConst key value := by
  rw [setConst?, h, Program.setConst]
  cases hp : l.program.setConst? key value with
  | none => exact ⟨l, by simp [hp, h], rfl⟩
  | some p => exact ⟨{ l with program := p, overrides := override key value l.overrides },
      by simp [hp], rfl⟩

theorem process_loaded {r : Renderer} {l : Loaded} (h : r.loaded = some l) (n : Nat) :
    match r.process n with
    | .ok (heard, r') =>
      ∃ run, Run.frames r.blockSize n ⟨l.program, r.bus, r.blockPos, .empty, []⟩ = .ok run ∧
        heard.value = run.out ∧ ∃ l', r'.loaded = some l' ∧ l'.program = run.program
    | .error f => Run.frames r.blockSize n ⟨l.program, r.bus, r.blockPos, .empty, []⟩ = .error f
    := by
  obtain ⟨rate, blockSize, blockPos, loaded, bus, frames⟩ := r
  simp only at h
  subst h
  obtain ⟨leftRoot, rightRoot, program, overrides⟩ := l
  simp only [process]
  cases hf : Run.frames blockSize n ⟨program, bus, blockPos, .empty, []⟩ with
  | error f => rfl
  | ok run => exact ⟨run, rfl, rfl, _, rfl, rfl⟩

end Renderer

theorem play_spec (hs : Coherent (under [left, right])) (calls : List Call) {t : Nat}
    (hc : ∀ i, held (t + i) = Call.settings current calls i) (r : Renderer) (l : Loaded)
    (hl : r.loaded = some l) (h : Playing rate held current t left right l.program) :
    match r.play calls with
    | .ok out => Hears rate held left right t (Call.frames calls) out ∧
        ∀ e ∈ under [left, right], ∀ i < Call.frames calls, (e.stream rate held (t + i)).isSome
    | .error _ => ∃ e ∈ under [left, right], ∃ i < Call.frames calls,
        e.stream rate held (t + i) = none := by
  -- `Playing`, at the frame that has been reached and with what has been set, carries the induction
  induction calls generalizing t current r l with
  | nil => exact ⟨hears_empty t, by simp [Call.frames]⟩
  | cons call rest ih =>
    cases call with
    | setConst key value =>
      obtain ⟨l', hl', hp⟩ := Renderer.setConst_loaded hl key value
      exact ih hc _ l' hl' (hp ▸ setConst_playing hs h key value)
    | process n =>
      have hnow : ∀ i < n, held (t + i) = current := fun i hi => by
        rw [hc, Call.settings, if_pos hi]
      have hlater : ∀ i, held (t + n + i) = Call.settings current rest i := fun i => by
        rw [Nat.add_assoc, hc, Call.settings, if_neg (by omega), Nat.add_sub_cancel_left]
      have hframes := frames_spec hs r.blockSize n hnow
        ⟨l.program, r.bus, r.blockPos, .empty, []⟩ h
      have hprocess := Renderer.process_loaded hl n
      rw [Renderer.play]
      cases hr : r.process n with
      | error f =>
        rw [hr] at hprocess
        simp only at hprocess
        rw [hprocess] at hframes
        obtain ⟨e, he, i, hi, hend⟩ := hframes
        exact ⟨e, he, i, by rw [Call.frames]; omega, hend⟩
      | ok result =>
        obtain ⟨heard, r'⟩ := result
        rw [hr] at hprocess
        obtain ⟨run, hrun, hvalue, l', hl', hp⟩ := hprocess
        rw [hrun] at hframes
        obtain ⟨hplay, hgo, out, hears, hout⟩ := hframes
        rw [empty_append] at hout
        have hrest := ih hlater r' l' hl' (hp ▸ hplay)
        simp only
        cases hpl : r'.play rest with
        | error f =>
          rw [hpl] at hrest
          obtain ⟨e, he, i, hi, hend⟩ := hrest
          exact ⟨e, he, n + i, by rw [Call.frames]; omega, by rwa [← Nat.add_assoc]⟩
        | ok out' =>
          rw [hpl] at hrest
          obtain ⟨hears', hgo'⟩ := hrest
          simp only [Except.map, hvalue, hout]
          refine ⟨hears_append hears hears', fun e he i hi => ?_⟩
          rw [Call.frames] at hi
          by_cases hin : i < n
          · exact hgo e he i hin
          · have := hgo' e he (i - n) (by omega)
            rwa [show t + n + (i - n) = t + i by omega] at this

theorem step_error {cells : List Cell} {slot : Nat} {values scratch : Array Float32}
    {f : KernelFault} (h : Program.step rate cells slot values scratch = .error f) :
    f = .emptyCutoffRange := by
  induction cells generalizing slot values scratch with
  | nil => cases h
  | cons c cells ih =>
    obtain ⟨kernel, args⟩ := c
    rw [Program.step] at h
    split at h
    · next hk =>
      cases h
      exact Kernel.tick_error _ _ _ _ hk
    · split at h
      · next hk =>
        cases h
        exact ih hk
      · cases h

theorem frames_error {blockSize n : Nat} {run : Renderer.Run} {f : KernelFault}
    (h : Renderer.Run.frames blockSize n run = .error f) : f = .emptyCutoffRange := by
  induction n generalizing run with
  | zero => cases h
  | succ n ih =>
    rw [Renderer.Run.frames] at h
    split at h
    · exact ih h
    · next hf =>
      cases h
      exact step_error (Renderer.frame_error hf)

theorem play_error {calls : List Call} {r : Renderer} {f : KernelFault}
    (h : r.play calls = .error f) : f = .emptyCutoffRange := by
  induction calls generalizing r with
  | nil => cases h
  | cons call rest ih =>
    cases call with
    | setConst key value => exact ih h
    | process n =>
      rw [Renderer.play] at h
      split at h
      · next hp =>
        cases h
        obtain ⟨rate, blockSize, blockPos, loaded, bus, frames⟩ := r
        cases loaded with
        | none => cases hp
        | some l =>
          have := Renderer.process_loaded (r := ⟨rate, blockSize, blockPos, some l, bus, frames⟩)
            rfl n
          rw [hp] at this
          exact frames_error this
      · next heard r' hp =>
        cases hr : r'.play rest with
        | error f' =>
          rw [hr] at h
          cases h
          exact ih hr
        | ok out =>
          rw [hr] at h
          cases h

theorem build_of_load {r r' : Renderer} (h : r.load left right = .ok r') :
    ∃ p, Program.build left right r.sampleRate = .ok p ∧ r'.loaded = some ⟨left, right, p, []⟩ := by
  simp only [Renderer.load, Renderer.buildProgram] at h
  cases hb : Program.build left right r.sampleRate with
  | error e =>
    rw [hb] at h
    cases h
  | ok p =>
    rw [hb] at h
    cases h
    exact ⟨p, rfl, rfl⟩

theorem load_ok_iff (r : Renderer) : (∃ r', r.load left right = .ok r') ↔
    ∃ p, Program.build left right r.sampleRate = .ok p := by
  constructor
  · rintro ⟨r', h⟩
    obtain ⟨p, hb, -⟩ := build_of_load h
    exact ⟨p, hb⟩
  · rintro ⟨p, hb⟩
    simp only [Renderer.load, Renderer.buildProgram, hb]
    exact ⟨_, rfl⟩

theorem load_eq_error_iff (r : Renderer) (e : RenderError) : r.load left right = .error e ↔
    ∃ err, Program.build left right r.sampleRate = .error err ∧ e = .ofSetup err := by
  rw [Renderer.load, Renderer.buildProgram]
  cases Program.build left right r.sampleRate <;>
    simp [bind, Except.bind, pure, Except.pure, eq_comm]

theorem load_playing {r r' : Renderer} (h : r.load left right = .ok r') :
    ∃ l, r'.loaded = some l ∧
      Playing r.sampleRate held (fun _ => none) 0 left right l.program := by
  obtain ⟨p, hb, hl⟩ := build_of_load h
  exact ⟨_, hl, build_playing hb⟩

theorem play_loaded (hs : Coherent (under [left, right])) {r r' : Renderer}
    (h : r.load left right = .ok r') (calls : List Call) :
    match r'.play calls with
    | .ok out =>
      Hears r.sampleRate (Call.settings (fun _ => none) calls) left right 0 (Call.frames calls)
          out ∧
        ∀ e ∈ under [left, right], ∀ t < Call.frames calls,
          (e.stream r.sampleRate (Call.settings (fun _ => none) calls) t).isSome
    | .error _ => ∃ e ∈ under [left, right], ∃ t < Call.frames calls,
        e.stream r.sampleRate (Call.settings (fun _ => none) calls) t = none := by
  obtain ⟨l, hl, hplay⟩ := load_playing h
  have hspec := play_spec hs calls (t := 0) (fun i => by rw [Nat.zero_add]) r' l hl hplay
  simp only [Nat.zero_add] at hspec
  exact hspec

theorem unlabelledAll_pair (a b : Expr) : unlabelledAll [a, b] = [a.unlabelled, b.unlabelled] := rfl

theorem under_twin {left' right' : Expr} (hl : left'.unlabelled = left.unlabelled)
    (hr : right'.unlabelled = right.unlabelled) (e : Expr) (he : e ∈ under [left, right]) :
    ∃ e' ∈ under [left', right'], e'.unlabelled = e.unlabelled := by
  have heq : (partsAll [left', right']).map unlabelled =
      (partsAll [left, right]).map unlabelled := by
    rw [← partsAll_unlabelled, ← partsAll_unlabelled, unlabelledAll_pair, unlabelledAll_pair,
      hl, hr]
  have hmem := List.mem_map_of_mem (f := unlabelled) he
  rw [← heq, List.mem_map] at hmem
  exact hmem

theorem load_twin {r r' : Renderer} {left' right' : Expr} (hs : Coherent (under [left, right]))
    (hs' : Coherent (under [left', right'])) (hl : left'.unlabelled = left.unlabelled)
    (hr : right'.unlabelled = right.unlabelled) (h : r.load left right = .ok r') :
    ∃ r'', r.load left' right' = .ok r'' := by
  rw [load_ok_iff, build_ok_iff hs']
  intro e he
  obtain ⟨f, hf, hfe⟩ := under_twin hl.symm hr.symm e he
  obtain ⟨k, hk⟩ := (build_ok_iff hs).1 ((load_ok_iff r).1 ⟨r', h⟩) f hf
  rw [← op_unlabelled e, ← key_unlabelled e, ← hfe, op_unlabelled, key_unlabelled]
  exact ⟨k, hk⟩

theorem play_ok_iff (hs : Coherent (under [left, right])) {r r' : Renderer}
    (h : r.load left right = .ok r') (calls : List Call) :
    (∃ out, r'.play calls = .ok out) ↔ ∀ e ∈ under [left, right], ∀ t < Call.frames calls,
      (e.stream r.sampleRate (Call.settings (fun _ => none) calls) t).isSome := by
  have hplay := play_loaded hs h calls
  cases hp : r'.play calls with
  | ok out =>
    rw [hp] at hplay
    exact ⟨fun _ => hplay.2, fun _ => ⟨out, rfl⟩⟩
  | error f =>
    rw [hp] at hplay
    obtain ⟨e, he, t, ht, hend⟩ := hplay
    constructor
    · rintro ⟨out, hout⟩
      cases hout
    · intro hall
      have := hall e he t ht
      simp [hend] at this

theorem play_hears (hs : Coherent (under [left, right])) {r r' : Renderer}
    (h : r.load left right = .ok r') {calls : List Call} {out : Stereo}
    (hp : r'.play calls = .ok out) :
    Hears r.sampleRate (Call.settings (fun _ => none) calls) left right 0 (Call.frames calls)
      out := by
  have hplay := play_loaded hs h calls
  rw [hp] at hplay
  exact hplay.1

/-- The second pair of roots sounds like the first one, and each of its nodes like some node of the
first pair. -/
structure Echoes (rate : Float32) (left right left' right' : Expr) : Prop where
  onLeft : ∀ held, left'.stream rate held = left.stream rate held
  onRight : ∀ held, right'.stream rate held = right.stream rate held
  nodes : ∀ e' ∈ under [left', right'], ∃ e ∈ under [left, right],
    ∀ held, e'.stream rate held = e.stream rate held

/-- What is heard of one pair of roots is heard of every pair that echoes it. -/
theorem play_echo {r r' s s' : Renderer} {left' right' : Expr} (hrate : s.sampleRate = r.sampleRate)
    (hs : Coherent (under [left, right])) (hs' : Coherent (under [left', right']))
    (hecho : Echoes r.sampleRate left right left' right') (h : r.load left right = .ok r')
    (h' : s.load left' right' = .ok s') {calls : List Call} {out : Stereo}
    (hp : r'.play calls = .ok out) : s'.play calls = .ok out := by
  have hgo : ∀ e ∈ under [left', right'], ∀ t < Call.frames calls,
      (e.stream s.sampleRate (Call.settings (fun _ => none) calls) t).isSome := by
    intro e' he' t ht
    obtain ⟨e, he, heq⟩ := hecho.nodes e' he'
    rw [hrate, heq]
    exact (play_ok_iff hs h calls).1 ⟨out, hp⟩ e he t ht
  obtain ⟨out', hp'⟩ := (play_ok_iff hs' h' calls).2 hgo
  have hears := play_hears hs h hp
  have hears' := play_hears hs' h' hp'
  rw [hrate] at hears'
  rw [hp', hears_unique hears hears' (fun t => congrFun (hecho.onLeft _) t)
    fun t => congrFun (hecho.onRight _) t]

theorem play_agree {r r' s s' : Renderer} {left' right' : Expr}
    (hrate : s.sampleRate = r.sampleRate) (hs : Coherent (under [left, right]))
    (hs' : Coherent (under [left', right'])) (hecho : Echoes r.sampleRate left right left' right')
    (hback : Echoes s.sampleRate left' right' left right) (h : r.load left right = .ok r')
    (h' : s.load left' right' = .ok s') (calls : List Call) : s'.play calls = r'.play calls := by
  cases hp : r'.play calls with
  | ok out => exact play_echo hrate hs hs' hecho h h' hp
  | error f =>
    cases hp' : s'.play calls with
    | ok out =>
      rw [play_echo hrate.symm hs' hs hback h' h hp'] at hp
      cases hp
    | error f' => rw [play_error hp, play_error hp']

theorem echoes_twin {left' right' : Expr} (hl : left'.unlabelled = left.unlabelled)
    (hr : right'.unlabelled = right.unlabelled) (rate : Float32) :
    Echoes rate left right left' right' := by
  have hsame {e e' : Expr} (hee : e'.unlabelled = e.unlabelled) (held : Settings) :
      e'.stream rate held = e.stream rate held := by
    rw [← stream_unlabelled, hee, stream_unlabelled]
  refine ⟨hsame hl, hsame hr, fun e' he' => ?_⟩
  obtain ⟨e, he, hee⟩ := under_twin hl.symm hr.symm e' he'
  exact ⟨e, he, hsame hee.symm⟩

theorem play_twin {r r' r'' : Renderer} {left' right' : Expr}
    (hs : Coherent (under [left, right])) (hs' : Coherent (under [left', right']))
    (hl : left'.unlabelled = left.unlabelled) (hr : right'.unlabelled = right.unlabelled)
    (h : r.load left right = .ok r') (h' : r.load left' right' = .ok r'') (calls : List Call) :
    r''.play calls = r'.play calls :=
  play_agree rfl hs hs' (echoes_twin hl hr _) (echoes_twin hl.symm hr.symm _) h h' calls

/-- Programs refine streams: after two roots are loaded, whatever a host calls, it hears their
streams for as long as every node goes on, and the same from any other pair of the same trees. -/
theorem play_streams {r r' : Renderer} (shared : Coherent (under [left, right]))
    (h : r.load left right = .ok r') (calls : List Call) :
    ((∃ out, r'.play calls = .ok out) ↔ ∀ e ∈ under [left, right], ∀ t < Call.frames calls,
      (e.stream r.sampleRate (Call.settings (fun _ => none) calls) t).isSome) ∧
    (∀ out, r'.play calls = .ok out → Hears r.sampleRate (Call.settings (fun _ => none) calls)
      left right 0 (Call.frames calls) out) ∧
    ∀ left' right', Coherent (under [left', right']) → left'.unlabelled = left.unlabelled →
      right'.unlabelled = right.unlabelled →
      ∃ r'', r.load left' right' = .ok r'' ∧ r''.play calls = r'.play calls := by
  refine ⟨play_ok_iff shared h calls, fun out hp => play_hears shared h hp,
    fun left' right' shared' hl hr => ?_⟩
  obtain ⟨r'', h'⟩ := load_twin shared shared' hl hr h
  exact ⟨r'', h', play_twin shared shared' hl hr h h' calls⟩

/-- A dial that the other channel doubles by adding it to itself. -/
def dial : Expr := .node ⟨.free, 0⟩ (.const 1.0) (some "dial") []

def dialTwice : Expr := .node ⟨.free, 1⟩ (.binary .add) none [dial, dial]

theorem coherent_dial : Coherent (under [dial, dialTwice]) :=
  coherent_of_subset [dial, dialTwice] (by decide) (by simp [partsAll, parts, dial, dialTwice])

theorem play_streams_dial : ∃ r' : Renderer,
    Renderer.load ⟨48000.0, 512, 0, none, .empty, 0⟩ dial dialTwice = .ok r' ∧
    Hears 48000.0 (Call.settings (fun _ => none) [.process 2, .setConst "dial" 3.0, .process 1])
      dial dialTwice 0 3 ⟨#[1.0, 1.0, 3.0], #[2.0, 2.0, 6.0]⟩ := by
  refine ⟨_, rfl, ?_⟩
  exact (play_streams coherent_dial (r := ⟨48000.0, 512, 0, none, .empty, 0⟩) rfl
    [.process 2, .setConst "dial" 3.0, .process 1]).2.1 _ rfl

end Patchbay
