import Mathlib
import Patchbay.Proofs.Overrides
import Patchbay.Proofs.Tuning
import Patchbay.Proofs.Voice

/-!
# Starting over

A reset takes a renderer back to where it was after loading, with the values that have been set
since. Not everything of the past is gone: filters keep their last finite cutoff and resonance and
envelopes their last finite sustain level, and an input that is not finite in the first frame
brings them back. With all of these inputs finite in the first frame a renderer that is reset sounds
like a new one.
-/

set_option autoImplicit false

namespace Patchbay

open Patchbay.Expr Patchbay.Renderer

variable {rate : Float32} {held : Settings} {current : String → Option Float32}
variable {left right : Expr}

/-- What a host does between loading and resetting. -/
inductive Action where
  | process (frames : Nat)
  | flush
  | setConst (key : String) (value : Float32)

namespace Renderer

def act (r : Renderer) : Action → Except KernelFault Renderer
  | .process n => (r.process n).map Prod.snd
  | .flush => .ok r.flush.2
  | .setConst key value => .ok ((r.setConst? key value).getD r)

def actAll (r : Renderer) : List Action → Except KernelFault Renderer
  | [] => .ok r
  | a :: rest => (r.act a).bind fun r => r.actAll rest

end Renderer

/-- A kernel that a node may have come to by whatever has happened. -/
inductive Born (rate : Float32) (current : String → Option Float32) (e : Expr) : Kernel → Prop
  | const (v : Float32) (op : e.op = .const v) :
      Born rate current e (.const ((e.key.bind current).getD v))
  | kernel (new k : Kernel) (op : ∀ v, e.op ≠ .const v)
      (setup : Kernel.setup e.op e.key rate = .ok new) (origin : k.origin = new.origin)
      (tuned : k.Tuned) : Born rate current e k

theorem born_setup (e : Expr) (k : Kernel) (h : Kernel.setup e.op e.key rate = .ok k) :
    Born rate (lookup []) e k := by
  by_cases hc : ∃ v, e.op = .const v
  · obtain ⟨v, hv⟩ := hc
    rw [hv] at h
    cases h
    have hn : (e.key.bind (lookup [])).getD v = v := by cases e.key <;> rfl
    have hk : Born rate (lookup []) e (.const ((e.key.bind (lookup [])).getD v)) := .const v hv
    rwa [hn] at hk
  · exact .kernel k k (fun v hv => hc ⟨v, hv⟩) h rfl (Kernel.setup_tuned h)

theorem born_steady : Steady (Born rate current) rate := by
  intro e k arg s h hs
  cases h with
  | const v op =>
    cases hs
    exact .const v op
  | kernel new k op setup origin tuned =>
    exact .kernel new _ op setup ((Kernel.tick_origin hs).trans origin)
      (Kernel.tick_tuned tuned hs)

theorem born_endBlock (e : Expr) (k : Kernel) (h : Born rate current e k) :
    Born rate current e k.endBlock.1 := by
  cases h with
  | const v op => exact .const v op
  | kernel new k op setup origin tuned =>
    exact .kernel new _ op setup ((Kernel.endBlock_origin k).trans origin)
      (Kernel.endBlock_tuned tuned)

theorem born_set (key : String) (value : Float32) (e : Expr) (k : Kernel)
    (h : Born rate current e k) :
    Born rate (Function.update current key (some value)) e
      (if Program.constKey? e = some key then k.setConst value else k) := by
  cases h with
  | const v op =>
    rw [const_set op]
    exact .const v op
  | kernel new k op setup origin tuned =>
    rw [if_neg (by simp [Program.constKey?_of_ne op])]
    exact .kernel new k op setup origin tuned

/-- A renderer that has played two roots for a while. -/
structure Played (rate : Float32) (left right : Expr) (r : Renderer) (l : Loaded) : Prop where
  loaded : r.loaded = some l
  keys : (l.overrides.map Prod.fst).Nodup
  laid : Laid (Born rate (lookup l.overrides)) rate left right l.program

theorem load_played {r r' : Renderer} (h : r.load left right = .ok r') :
    ∃ l, Played r.sampleRate left right r' l := by
  obtain ⟨p, hb, hl⟩ := build_of_load h
  exact ⟨_, hl, .nil, build_laid hb born_setup⟩

theorem setConst_played (hs : Coherent (under [left, right])) {r : Renderer} {l : Loaded}
    (h : Played rate left right r l) (key : String) (value : Float32) :
    ∃ l', Played rate left right ((r.setConst? key value).getD r) l' := by
  have hlaid := setConst_laid hs (born_set key value) h.laid
  rw [← lookup_override] at hlaid
  rw [Program.setConst] at hlaid
  rw [Renderer.setConst?, h.loaded]
  cases hp : l.program.setConst? key value with
  | none =>
    refine ⟨l, ?_⟩
    simpa [hp] using h
  | some p =>
    rw [hp] at hlaid
    refine ⟨{ l with program := p, overrides := Renderer.override key value l.overrides }, ?_⟩
    constructor
    · simp [hp]
    · exact override_nodup h.keys key value
    · exact hlaid

theorem process_played {r r' : Renderer} {l : Loaded} (h : Played rate left right r l) {n : Nat}
    {heard : Heard Stereo} (hp : r.process n = .ok (heard, r')) :
    ∃ l', Played rate left right r' l' := by
  obtain ⟨sampleRate, blockSize, pos, loaded, bus, frames⟩ := r
  obtain ⟨hl, hkeys, hlaid⟩ := h
  simp only at hl
  subst hl
  obtain ⟨leftRoot, rightRoot, program, overrides⟩ := l
  simp only [Renderer.process] at hp
  split at hp
  · cases hp
  · next program' bus' pos' out delivered hrun =>
    cases hp
    have hsteady : Steady (Born rate (lookup overrides)) rate := born_steady
    have hlaid' := frames_laid hsteady born_endBlock hlaid hrun
    exact ⟨_, rfl, hkeys, hlaid'⟩

theorem act_played (hs : Coherent (under [left, right])) {r r' : Renderer} {l : Loaded}
    (h : Played rate left right r l) (a : Action) (ha : r.act a = .ok r') :
    ∃ l', Played rate left right r' l' := by
  cases a with
  | process n =>
    rw [Renderer.act] at ha
    cases hp : r.process n with
    | error f =>
      rw [hp] at ha
      cases ha
    | ok result =>
      rw [hp] at ha
      cases ha
      exact process_played h hp
  | flush =>
    cases ha
    rw [Renderer.flush, h.loaded]
    exact ⟨_, rfl, h.keys, endBlock_laid born_endBlock h.laid⟩
  | setConst key value =>
    cases ha
    exact setConst_played hs h key value

theorem actAll_played (hs : Coherent (under [left, right])) (history : List Action)
    {r r' : Renderer} {l : Loaded} (h : Played rate left right r l)
    (ha : r.actAll history = .ok r') : ∃ l', Played rate left right r' l' := by
  induction history generalizing r l with
  | nil =>
    cases ha
    exact ⟨l, h⟩
  | cons a history ih =>
    rw [Renderer.actAll] at ha
    cases hact : r.act a with
    | error f =>
      rw [hact] at ha
      cases ha
    | ok next =>
      rw [hact] at ha
      obtain ⟨l', h'⟩ := act_played hs h a hact
      exact ih h' ha

theorem born_reset_tick {e : Expr} {k q : Kernel} (hk : Born rate current e k)
    (hq : Runs rate held current 0 e q) {arg : Nat → Float32}
    (hfinite : ∀ i ∈ e.op.keeps, (arg i).isFinite = true) :
    (k.reset.tick arg rate).map (fun s => (s.value, s.kernel.voice)) =
      (q.tick arg rate).map fun s => (s.value, s.kernel.voice) := by
  cases hk with
  | const v op =>
    cases hq with
    | const v' op' =>
      obtain rfl : v = v' := by simpa [op] using op'
      rfl
    | kernel fresh now k op' setup before voice => exact absurd op (op' v)
  | kernel new k op setup origin tuned =>
    cases hq with
    | const v op' => exact absurd op' (op v)
    | kernel fresh now q op' setup' before voice =>
      cases before
      obtain rfl : new = fresh := Except.ok.inj (setup.symm.trans setup')
      rw [Kernel.tick_reset op setup origin tuned hfinite]
      exact Kernel.tick_voice new q voice.symm arg rate

theorem keeps_lt {op : Op} {i : Nat} (h : i ∈ op.keeps) : i < op.arity := by
  cases op with
  | filter mode =>
    simp only [Op.keeps, List.mem_cons, List.not_mem_nil, or_false] at h
    simp only [Op.arity]
    omega
  | envelope =>
    simp only [Op.keeps, List.mem_cons, List.not_mem_nil, or_false] at h
    simp only [Op.arity]
    omega
  | _ => cases h

theorem step_reset {nodes : List Expr} (hlist : Listed nodes) (hc : held 0 = current)
    (hfinite : ∀ e ∈ nodes, ∀ i ∈ e.op.keeps, ∀ x, argument rate held 0 e i = some x →
      x.isFinite = true)
    (pre post : List Expr) (cells cells' : List Cell) (values scratch : Array Float32)
    (hn : nodes = pre ++ post)
    (hnew : List.Forall₂ (Program.Tracks rate held current 0 nodes) post cells)
    (hold : List.Forall₂ (fun e c => c.args = Program.argSlots nodes e ∧
      ∃ k, Born rate current e k ∧ c.kernel = k.reset) post cells')
    (hv : Program.Holds rate held 0 nodes pre values) (hs : values.size = nodes.length + 1)
    (hw : scratch.size = Program.scratch.size) :
    (Program.step rate cells' (pre.length + 1) values scratch).map
        (fun f => (f.cells.map Cell.voice, f.values)) =
      (Program.step rate cells (pre.length + 1) values scratch).map
        fun f => (f.cells.map Cell.voice, f.values) := by
  induction post generalizing pre cells cells' values scratch with
  | nil =>
    cases hnew
    cases hold
    rfl
  | cons e post ih =>
    obtain ⟨⟨kernel, args⟩, rest, ⟨hargs, hruns⟩, hrest, rfl⟩ := List.forall₂_cons_left_iff.1 hnew
    obtain ⟨⟨kernel', args'⟩, rest', ⟨hargs', k, hborn, hkernel⟩, hrest', rfl⟩ :=
      List.forall₂_cons_left_iff.1 hold
    simp only at hargs hruns hargs' hkernel
    subst hargs hargs' hkernel
    obtain ⟨hch, hl⟩ := hlist pre post e hn
    have hfed := Program.fed_of_holds hv hw e hch
    -- the new cell is handed samples of the streams, which is where they are known to be finite
    have hkeeps : ∀ i ∈ e.op.keeps,
        ((Program.fetch values 0 (Program.argSlots nodes e) scratch).getD i 0.0).isFinite = true := by
      intro i hi
      exact hfinite e (by simp [hn]) i hi _ (hfed i (keeps_lt hi))
    have htick := runs_tick hruns hc hfed
    rw [Program.step, Program.step]
    rcases map_eq_map (born_reset_tick hborn hruns hkeeps)
      with ⟨f, hk', hk⟩ | ⟨s', s, hk', hk, heq⟩
    · rw [hk', hk]
    · rw [Prod.mk.injEq] at heq
      rw [hk] at htick
      have hrec := ih (pre ++ [e]) rest rest' (values.setIfInBounds (pre.length + 1) s.value)
        (Program.fetch values 0 (Program.argSlots nodes e) scratch) (by simp [hn]) hrest hrest'
        (Program.holds_snoc hn hl hv hs htick.1) (by rw [Array.size_setIfInBounds, hs])
        (by rw [Program.fetch_size, hw])
      rw [List.length_append, List.length_singleton] at hrec
      rw [hk', hk]
      simp only [heq.1]
      rcases map_eq_map hrec with ⟨f, hf', hf⟩ | ⟨g', g, hf', hf, heq'⟩
      · rw [hf', hf]
      · rw [Prod.mk.injEq] at heq'
        simp only [hf', hf, Except.map, List.map_cons, Cell.voice, heq.2, heq'.1, heq'.2]

/-- A program none of whose slots holds anything yet. -/
structure Quiet (R : Expr → Kernel → Prop) (rate : Float32) (left right : Expr) (p : Program) :
    Prop where
  laid : Laid R rate left right p
  values : p.values = .replicate ((nodesOf [left, right]).length + 1) 0.0

theorem reset_quiet {R : Expr → Kernel → Prop} {p : Program} (h : Laid R rate left right p) :
    Quiet (fun e k' => ∃ k, R e k ∧ k' = k.reset) rate left right p.reset := by
  obtain ⟨⟨cells, hcells, hall⟩, hvalues, hconst, htaps, hleft, hright, hrate⟩ := h
  have hzero : p.reset.values = .replicate ((nodesOf [left, right]).length + 1) 0.0 := by
    show p.values.map (fun _ => 0.0) = _
    rw [Array.map_const', hvalues]
  refine ⟨⟨⟨cells.map fun c => { c with kernel := c.kernel.reset }, ?_, ?_⟩, ?_, hconst, htaps, hleft,
    hright, hrate⟩, hzero⟩
  · rw [Program.reset, hcells]
    rfl
  · rw [List.forall₂_map_right_iff]
    exact hall.imp fun e c hc => ⟨hc.1, _, hc.2, rfl⟩
  · rw [hzero, Array.size_replicate]

theorem build_quiet {p : Program} (h : Program.build left right rate = .ok p) :
    Quiet (Runs rate held (fun _ => none) 0) rate left right p := by
  have hlaid := build_laid (R := Runs rate held (fun _ => none) 0) h fun e k hk => runs_fresh hk
  obtain ⟨cells, hcells, rfl⟩ := (build_eq_ok_iff p).1 h
  constructor
  · exact hlaid
  · simp [hcells.length_eq]

theorem setConst_quiet (hs : Coherent (under [left, right])) {p : Program}
    (h : Quiet (Runs rate held current 0) rate left right p) (key : String) (value : Float32) :
    Quiet (Runs rate held (Function.update current key (some value)) 0) rate left right
      (p.setConst key value) := by
  constructor
  · exact setConst_laid hs (fun e k hk => runs_set hk key value) h.laid
  · rw [Program.setConst_values]
    exact h.values

/-- With these values set, every input of which the last finite value is kept is finite in the first
frame. -/
def Definite (rate : Float32) (current : String → Option Float32) (left right : Expr) : Prop :=
  ∀ e ∈ under [left, right], ∀ i ∈ e.op.keeps, ∀ x,
    argument rate (fun _ => current) 0 e i = some x → x.isFinite = true

/-- A run that starts from a reset and one that starts from the same values anew. -/
theorem reset_frame (hs : Coherent (under [left, right]))
    (hfinite : Definite rate current left right) {run run' : Run}
    (h : Quiet (fun e k' => ∃ k, Born rate current e k ∧ k' = k.reset) rate left right run.program)
    (h' : Quiet (Runs rate (fun _ => current) current 0) rate left right run'.program)
    (hout : run.out = run'.out) (blockSize blockSize' : Nat) :
    (run.frame blockSize).map Run.voice = (run'.frame blockSize').map Run.voice := by
  obtain ⟨⟨⟨cells, hcells, hall⟩, -, hconst, htaps, hleft, hright, hrate⟩, hvalues⟩ := h
  obtain ⟨⟨⟨cells', hcells', hall'⟩, -, hconst', htaps', hleft', hright', hrate'⟩, hvalues'⟩ := h'
  have hmem := mem_nodesOf _ hs
  have hstart : Program.Holds rate (fun _ => current) 0 (nodesOf [left, right]) []
      ((Array.replicate ((nodesOf [left, right]).length + 1) (0.0 : Float32)).setIfInBounds 0
        0.0) := Program.holds_nil (by simp)
  have hstep := step_reset (listed_nodesOf _ hs) rfl (fun e he => hfinite e ((hmem e).1 he)) []
    (nodesOf [left, right]) cells' cells _ Program.scratch rfl
    (hall'.imp fun e c hc => ⟨hc.1, hc.2⟩) hall hstart (by simp) rfl
  rw [frame_voice, frame_voice, hcells, hcells', hvalues, hvalues', hrate, hrate']
  simp only [Program.step, Program.zeroCell, Program.fetch, Kernel.tick]
  simp only [List.length_nil] at hstep
  rcases map_eq_map hstep with ⟨f, hf, hf'⟩ | ⟨f, f', hf, hf', heq⟩
  · rw [hf, hf']
    rfl
  · rw [Prod.mk.injEq] at heq
    simp only [hf, hf', Except.map, List.map_cons, heq.1, heq.2, hconst, hconst', htaps, htaps',
      hleft, hleft', hright, hright', hrate, hrate', hout]

theorem reset_frames (hs : Coherent (under [left, right]))
    (hfinite : Definite rate current left right) {run run' : Run}
    (h : Quiet (fun e k' => ∃ k, Born rate current e k ∧ k' = k.reset) rate left right run.program)
    (h' : Quiet (Runs rate (fun _ => current) current 0) rate left right run'.program)
    (hout : run.out = run'.out) (blockSize blockSize' n : Nat) :
    (Run.frames blockSize n run).map Run.out = (Run.frames blockSize' n run').map Run.out := by
  cases n with
  | zero => exact congrArg Except.ok hout
  | succ n =>
    rw [Run.frames, Run.frames]
    rcases map_eq_map (reset_frame hs hfinite h h' hout blockSize blockSize')
      with ⟨f, hf, hf'⟩ | ⟨next, next', hf, hf', heq⟩
    · rw [hf, hf']
    · rw [hf, hf']
      -- from the second frame on nothing that can be heard tells the runs apart
      rcases map_eq_map (frames_alike heq blockSize blockSize' n)
        with ⟨f, hfs, hfs'⟩ | ⟨last, last', hfs, hfs', heq'⟩
      · simp only [hfs, hfs', Except.map]
      · rw [Run.voice, Run.voice, Prod.mk.injEq] at heq'
        simp only [hfs, hfs', Except.map, heq'.2]

namespace Renderer

theorem process_map (r : Renderer) {l : Loaded} (h : r.loaded = some l) (n : Nat) :
    (r.process n).map (·.1.value) =
      (Run.frames r.blockSize n ⟨l.program, r.bus, r.blockPos, .empty, []⟩).map Run.out := by
  have hrun := process_loaded h n
  cases hp : r.process n with
  | error f =>
    rw [hp] at hrun
    rw [hrun]
    rfl
  | ok result =>
    rw [hp] at hrun
    obtain ⟨run, hf, hout, -⟩ := hrun
    rw [hf, Except.map, Except.map, hout]

theorem load_quiet {r r' : Renderer} (h : r.load left right = .ok r') :
    ∃ l, r'.loaded = some l ∧
      Quiet (Runs r.sampleRate held (fun _ => none) 0) r.sampleRate left right l.program := by
  obtain ⟨p, hb, hl⟩ := build_of_load h
  exact ⟨_, hl, build_quiet hb⟩

theorem setAll_quiet (hs : Coherent (under [left, right])) (settings : List (String × Float32))
    {r : Renderer} {l : Loaded} (hl : r.loaded = some l)
    (h : Quiet (Runs rate held current 0) rate left right l.program) :
    ∃ l', (r.setAll settings).loaded = some l' ∧
      Quiet (Runs rate held (settings.foldl (fun (c : String → Option Float32) s =>
        Function.update c s.1 (some s.2)) current) 0) rate left right l'.program := by
  induction settings generalizing r l current with
  | nil => exact ⟨l, hl, h⟩
  | cons s settings ih =>
    obtain ⟨l', hl', hp⟩ := setConst_loaded hl s.1 s.2
    apply ih hl'
    rw [hp]
    exact setConst_quiet hs h s.1 s.2

end Renderer

/-- A reset takes a renderer, whatever it has played and whatever has been set, to where a new one
is once the latest values are set on it. -/
theorem reset_process {r₀ r r' : Renderer} (shared : Coherent (under [left, right]))
    (load : r₀.load left right = .ok r) (history : List Action)
    (played : r.actAll history = .ok r') :
    ∃ l, r'.loaded = some l ∧
      (Definite r₀.sampleRate (lookup l.overrides) left right →
      ∀ other : Renderer, other.sampleRate = r₀.sampleRate →
      ∀ settings : List (String × Float32), settings.Perm l.overrides →
      ∃ fresh, other.load left right = .ok fresh ∧ ∀ n,
        (r'.reset.process n).map (·.1.value) =
          ((fresh.setAll settings).process n).map (·.1.value)) := by
  obtain ⟨l₀, hplayed₀⟩ := load_played load
  obtain ⟨l, hplayed⟩ := actAll_played shared history hplayed₀ played
  refine ⟨l, hplayed.loaded, fun hfinite other hrate settings hperm => ?_⟩
  have hbuilt : ∃ p, Program.build left right other.sampleRate = .ok p := by
    rw [hrate]
    exact (load_ok_iff r₀).1 ⟨r, load⟩
  obtain ⟨fresh, hload⟩ := (load_ok_iff other).2 hbuilt
  refine ⟨fresh, hload, fun n => ?_⟩
  have hstart : ∃ new, fresh.loaded = some new ∧ Quiet (Runs other.sampleRate
      (fun _ => lookup l.overrides) (fun _ => none) 0) other.sampleRate left right new.program :=
    load_quiet hload
  obtain ⟨new, hnew, hquiet⟩ := hstart
  obtain ⟨s, hs, hquiet'⟩ := setAll_quiet shared settings hnew hquiet
  have hkeys : (settings.map Prod.fst).Nodup := (hperm.map Prod.fst).nodup_iff.2 hplayed.keys
  have hcurrent : settings.foldl (fun (c : String → Option Float32) s =>
      Function.update c s.1 (some s.2)) (fun _ => none) = lookup l.overrides := by
    funext key
    rw [foldl_update hkeys, lookup_perm hplayed.keys hperm, Option.or_none]
  rw [hcurrent, hrate] at hquiet'
  have hreset : r'.reset.loaded = some { l with program := l.program.reset } := by
    rw [reset, hplayed.loaded]
    rfl
  rw [process_map _ hreset, process_map _ hs]
  apply reset_frames shared hfinite
  · exact reset_quiet hplayed.laid
  · exact hquiet'
  · rfl

/-- An envelope whose inputs are all the same dial. -/
def swell : Expr := .node ⟨.free, 1⟩ .envelope none [dial, dial, dial, dial, dial]

theorem coherent_swell : Coherent (under [dial, swell]) :=
  coherent_of_subset [dial, swell] (by decide) (by simp [partsAll, parts, dial, swell])

theorem reset_process_swell : ∃ r r' fresh : Renderer,
    Renderer.load ⟨48000.0, 512, 0, none, .empty, 0⟩ dial swell = .ok r ∧
    r.actAll [.process 2, .setConst "dial" 0.25, .flush] = .ok r' ∧
    Renderer.load ⟨48000.0, 128, 0, none, .empty, 0⟩ dial swell = .ok fresh ∧
    ∀ n, (r'.reset.process n).map (·.1.value) =
      ((fresh.setAll [("dial", 0.25)]).process n).map (·.1.value) := by
  have hfinite : Definite 48000.0 (lookup [("dial", 0.25)]) dial swell := by
    intro e he i hi x hx
    simp only [under, partsAll, parts, dial, swell, Set.mem_ofPred_eq, List.append_nil,
      List.cons_append, List.nil_append, List.mem_cons, List.not_mem_nil, or_false, or_self] at he
    rcases he with rfl | rfl | rfl
    · cases hi
    · obtain rfl : i = 2 := List.mem_singleton.1 hi
      cases hx
      rfl
    · cases hi
  have hload : Renderer.load ⟨48000.0, 512, 0, none, .empty, 0⟩ dial swell = .ok _ := rfl
  obtain ⟨l, hl, h⟩ := reset_process coherent_swell hload
    [.process 2, .setConst "dial" 0.25, .flush] rfl
  cases hl
  obtain ⟨fresh, hfresh, hn⟩ := h hfinite ⟨48000.0, 128, 0, none, .empty, 0⟩ rfl [("dial", 0.25)]
    (.refl _)
  exact ⟨_, _, fresh, hload, rfl, hfresh, hn⟩

end Patchbay
