import Mathlib
import Patchbay.Proofs.Reset

/-!
# What a renderer keeps

A host loads roots, sets values and changes the rate. All that a renderer keeps of such a history
are the roots and the values, so whatever it is asked next can be answered from what the host
remembers of its calls and of their answers.
-/

set_option autoImplicit false

namespace Patchbay

open Patchbay.Expr

variable {rate : Float32} {left right : Expr} {current : String → Option Float32}

/-- A call of a host, listeners included. -/
inductive Control where
  | load (left right : Expr)
  | clear
  | setConst (key : String) (value : Float32)
  | setSampleRate (rate : Float32)
  | withBlockSize (n : Nat)
  | reset
  | process (frames : Nat)
  | processBlock (left right : Array Float32)
  | flush
  | subscribe (tag : ProbeTag) (listener : Nat)
  | unsubscribe (tag : ProbeTag)

/-- What the host gets back. -/
inductive Answer where
  | done
  | refused (e : RenderError)
  | found (known : Bool)
  | heard (h : Heard (Array Float32 × Array Float32))
  | reported (deliveries : List Delivery)

/-- What a host can know of a renderer from its calls and their answers: the roots it has loaded and
the values it has set on them. -/
structure Memory where
  roots : Option (Expr × Expr)
  settings : String → Option Float32

namespace Memory

def blank : Memory := ⟨none, fun _ => none⟩

def after (m : Memory) : Control × Answer → Memory
  | (.load left right, .done) => ⟨some (left, right), fun _ => none⟩
  | (.clear, _) => blank
  | (.setConst key value, .found true) =>
    { m with settings := Function.update m.settings key (some value) }
  | _ => m

def ofLog (log : List (Control × Answer)) : Memory := log.foldl after blank

end Memory

namespace Renderer

/-- A refused call leaves everything as it was. A kernel that cannot run ends the session. -/
def settle (r : Renderer) : Except RenderError Renderer → Except KernelFault (Answer × Renderer)
  | .ok r' => .ok (.done, r')
  | .error (.fault f) => .error f
  | .error e => .ok (.refused e, r)

def obey (r : Renderer) : Control → Except KernelFault (Answer × Renderer)
  | .load left right => r.settle (r.load left right)
  | .clear => .ok (.done, r.clear)
  | .setConst key value =>
    match r.setConst? key value with
    | some r' => .ok (.found true, r')
    | none => .ok (.found false, r)
  | .setSampleRate rate => r.settle (r.setSampleRate rate)
  | .withBlockSize n => .ok (.done, r.withBlockSize n)
  | .reset => .ok (.done, r.reset)
  | .process n => (r.process n).map fun (heard, r) =>
    (.heard ⟨(heard.value.left, heard.value.right), heard.deliveries⟩, r)
  | .processBlock left right => (r.processBlock left right).map fun (heard, r) => (.heard heard, r)
  | .flush => .ok (.reported r.flush.1, r.flush.2)
  | .subscribe tag listener => .ok (.done, r.subscribe tag listener)
  | .unsubscribe tag => .ok (.done, r.unsubscribe tag)

/-- Some calls one after the other, with a log of the answers. -/
def perform (r : Renderer) :
    List Control → Except KernelFault (List (Control × Answer) × Renderer)
  | [] => .ok ([], r)
  | c :: rest =>
    match r.obey c with
    | .error f => .error f
    | .ok (a, r) => (r.perform rest).map fun (log, r) => ((c, a) :: log, r)

/-- A new renderer at a given rate, with the blocks and the listeners of one in use. -/
def anew (r : Renderer) (rate : Float32) : Except RenderError Renderer :=
  (new rate).map fun fresh =>
    { fresh.withBlockSize r.blockSize with bus := { ProbeBus.empty with
      subscriptions := r.bus.subscriptions } }

/-- The roots and the values set on them. -/
def asked (r : Renderer) : Option ((Expr × Expr) × List (String × Float32)) :=
  r.loaded.map fun l => ((l.leftRoot, l.rightRoot), l.overrides)

end Renderer

/-- A renderer is as the host remembers it. -/
structure Kept (m : Memory) (r : Renderer) : Prop where
  rate : Renderer.checkSampleRate r.sampleRate = .ok ()
  blocks : 1 ≤ r.blockSize
  built : ∀ roots overrides, r.asked = some (roots, overrides) →
    ∃ rate p, Program.build roots.1 roots.2 rate = .ok p
  asked : ∃ overrides, r.asked = m.roots.map (·, overrides) ∧ (overrides.map Prod.fst).Nodup ∧
    lookup overrides = m.settings

theorem Kept.of_eq {m : Memory} {r r' : Renderer} (h : Kept m r)
    (hrate : r'.sampleRate = r.sampleRate) (hblocks : r'.blockSize = r.blockSize)
    (hasked : r'.asked = r.asked) : Kept m r' := by
  obtain ⟨rate, blocks, built, asked⟩ := h
  rw [← hrate] at rate
  rw [← hblocks] at blocks
  rw [← hasked] at built asked
  exact ⟨rate, blocks, built, asked⟩

theorem Kept.nothing {m : Memory} {r : Renderer} (h : Kept m r) {r' : Renderer}
    (hrate : r'.sampleRate = r.sampleRate) (hblocks : r'.blockSize = r.blockSize)
    (hasked : r'.loaded = none) : Kept .blank r' := by
  refine ⟨hrate ▸ h.rate, hblocks ▸ h.blocks, ?_, [], ?_, .nil, rfl⟩
  · rw [Renderer.asked, hasked]
    rintro roots overrides ⟨⟩
  · rw [Renderer.asked, hasked]
    rfl

namespace Renderer

theorem load_eq {r r' : Renderer} (h : r.load left right = .ok r') :
    ∃ p, Program.build left right r.sampleRate = .ok p ∧
      r' = { r with loaded := some ⟨left, right, p, []⟩, blockPos := 0, frames := 0 } := by
  simp only [load, buildProgram] at h
  cases hb : Program.build left right r.sampleRate with
  | error e =>
    rw [hb] at h
    cases h
  | ok p =>
    rw [hb] at h
    cases h
    exact ⟨p, rfl, rfl⟩

theorem load_of_build {p : Program} {sampleRate : Float32} {blockSize blockPos frames : Nat}
    {loaded : Option Loaded} {bus : ProbeBus} (h : Program.build left right sampleRate = .ok p) :
    load ⟨sampleRate, blockSize, blockPos, loaded, bus, frames⟩ left right =
      .ok ⟨sampleRate, blockSize, 0, some ⟨left, right, p, []⟩, bus, 0⟩ := by
  simp only [load, buildProgram, h]
  rfl

theorem setSampleRate_eq {r r' : Renderer} (h : r.setSampleRate rate = .ok r') :
    checkSampleRate rate = .ok () ∧
      ((r.loaded = none ∧ r' = { r with sampleRate := rate, blockPos := 0 }) ∨
      ∃ l p, r.loaded = some l ∧ Program.build l.leftRoot l.rightRoot rate = .ok p ∧
        r' = { r with
          sampleRate := rate
          blockPos := 0
          loaded := some { l with
            program := l.overrides.foldl (fun p s => p.setConst s.1 s.2) p } }) := by
  simp only [setSampleRate, buildProgram] at h
  cases hc : checkSampleRate rate with
  | error e =>
    rw [hc] at h
    cases h
  | ok _ =>
    refine ⟨rfl, ?_⟩
    rw [hc] at h
    cases hl : r.loaded with
    | none =>
      rw [hl] at h
      cases h
      exact .inl ⟨rfl, rfl⟩
    | some l =>
      rw [hl] at h
      cases hb : Program.build l.leftRoot l.rightRoot rate with
      | error e =>
        simp only [hb] at h
        cases h
      | ok p =>
        simp only [hb] at h
        cases h
        exact .inr ⟨l, p, rfl, hb, rfl⟩

theorem setConst?_eq {r r' : Renderer} {key : String} {value : Float32}
    (h : r.setConst? key value = some r') :
    ∃ l p, r.loaded = some l ∧ l.program.setConst? key value = some p ∧ r' = { r with
      loaded := some { l with program := p, overrides := override key value l.overrides } } := by
  rw [setConst?] at h
  cases hl : r.loaded with
  | none =>
    rw [hl] at h
    cases h
  | some l =>
    cases hp : l.program.setConst? key value with
    | none => simp [hl, hp] at h
    | some p =>
      rw [hl, Option.bind_eq_bind, Option.bind_some, hp] at h
      cases h
      exact ⟨l, p, rfl, hp, rfl⟩

theorem process_asked {r r' : Renderer} {n : Nat} {heard : Heard Stereo}
    (h : r.process n = .ok (heard, r')) :
    r'.sampleRate = r.sampleRate ∧ r'.blockSize = r.blockSize ∧ r'.asked = r.asked := by
  obtain ⟨rate, blockSize, pos, loaded, bus, frames⟩ := r
  cases loaded with
  | none =>
    cases h
    exact ⟨rfl, rfl, rfl⟩
  | some l =>
    rw [process] at h
    split at h
    · cases h
    · cases h
      exact ⟨rfl, rfl, rfl⟩

theorem processBlock_eq {r r' : Renderer} {left right : Array Float32}
    {heard : Heard (Array Float32 × Array Float32)}
    (h : r.processBlock left right = .ok (heard, r')) :
    r' = r ∨ ∃ n stereo, r.process n = .ok (stereo, r') := by
  rw [processBlock] at h
  split at h
  · cases hp : r.process (min left.size right.size) with
    | error f =>
      rw [hp] at h
      cases h
    | ok result =>
      rw [hp] at h
      cases h
      exact .inr ⟨_, _, hp⟩
  · cases h
    exact .inl rfl

theorem settle_eq {r r' : Renderer} {x : Except RenderError Renderer} {a : Answer}
    (h : r.settle x = .ok (a, r')) :
    (a = .done ∧ x = .ok r') ∨ (∃ e, a = .refused e) ∧ r' = r := by
  rw [settle.eq_def] at h
  split at h
  · cases h
    exact .inl ⟨rfl, rfl⟩
  · cases h
  · cases h
    exact .inr ⟨⟨_, rfl⟩, rfl⟩

/-- What one call changes is what a host remembers of it. -/
theorem obey_kept {m : Memory} {r r' : Renderer} (h : Kept m r) {c : Control} {a : Answer}
    (hc : r.obey c = .ok (a, r')) : Kept (m.after (c, a)) r' := by
  cases c with
  | load left right =>
    obtain ⟨rfl, hl⟩ | ⟨⟨e, rfl⟩, rfl⟩ := settle_eq hc
    · obtain ⟨p, hb, rfl⟩ := load_eq hl
      refine ⟨h.rate, h.blocks, ?_, [], rfl, .nil, rfl⟩
      rintro roots overrides ⟨⟩
      exact ⟨_, p, hb⟩
    · exact h
  | clear =>
    cases hc
    exact h.nothing rfl rfl rfl
  | setConst key value =>
    rw [obey] at hc
    split at hc
    · next next hs =>
      cases hc
      obtain ⟨l, p, hl, -, rfl⟩ := setConst?_eq hs
      obtain ⟨rate, blocks, built, overrides, hasked, hkeys, hsettings⟩ := h
      rw [asked, hl, Option.map_some] at built hasked
      rw [eq_comm, Option.map_eq_some_iff] at hasked
      obtain ⟨roots, hroots, heq⟩ := hasked
      rw [Prod.mk.injEq] at heq
      obtain ⟨rfl, rfl⟩ := heq
      refine ⟨rate, blocks, ?_, override key value l.overrides, ?_,
        override_nodup hkeys key value, ?_⟩
      · rintro roots overrides ⟨⟩
        exact built _ _ rfl
      · rw [Memory.after, hroots]
        rfl
      · rw [lookup_override, hsettings]
        rfl
    · cases hc
      exact h
  | setSampleRate rate =>
    obtain ⟨rfl, hs⟩ | ⟨⟨e, rfl⟩, rfl⟩ := settle_eq hc
    · obtain ⟨hrate, hset⟩ := setSampleRate_eq hs
      obtain ⟨-, blocks, built, hasked⟩ := h
      rcases hset with ⟨-, rfl⟩ | ⟨l, p, hl, -, rfl⟩
      · exact ⟨hrate, blocks, built, hasked⟩
      · rw [asked, hl] at built hasked
        exact ⟨hrate, blocks, built, hasked⟩
    · exact h
  | withBlockSize n =>
    cases hc
    exact ⟨h.rate, Nat.le_max_right n 1, h.built, h.asked⟩
  | reset =>
    cases hc
    refine h.of_eq rfl rfl ?_
    rw [asked, asked, reset, Option.map_map]
    rfl
  | process n =>
    obtain ⟨result, hp, heq⟩ := map_eq_ok hc
    cases heq
    obtain ⟨hrate, hblocks, hasked⟩ := process_asked hp
    exact h.of_eq hrate hblocks hasked
  | processBlock left right =>
    obtain ⟨result, hp, heq⟩ := map_eq_ok hc
    cases heq
    rcases processBlock_eq hp with heq | ⟨n, stereo, hn⟩
    · rwa [heq]
    · obtain ⟨hrate, hblocks, hasked⟩ := process_asked hn
      exact h.of_eq hrate hblocks hasked
  | flush =>
    cases hc
    obtain ⟨rate, blockSize, pos, loaded, bus, frames⟩ := r
    cases loaded with
    | none => exact h.of_eq rfl rfl rfl
    | some l => exact h.of_eq rfl rfl rfl
  | subscribe tag listener =>
    cases hc
    exact h.of_eq rfl rfl rfl
  | unsubscribe tag =>
    cases hc
    exact h.of_eq rfl rfl rfl

theorem new_eq {r : Renderer} (h : new rate = .ok r) :
    checkSampleRate rate = .ok () ∧ r = ⟨rate, defaultBlockSize, 0, none, .empty, 0⟩ := by
  rw [new] at h
  cases hc : checkSampleRate rate with
  | error e =>
    rw [hc] at h
    cases h
  | ok _ =>
    rw [hc] at h
    cases h
    exact ⟨rfl, rfl⟩

theorem new_kept {r : Renderer} (h : new rate = .ok r) : Kept .blank r := by
  obtain ⟨hrate, rfl⟩ := new_eq h
  refine ⟨hrate, Nat.le_add_left 1 511, ?_, [], rfl, .nil, rfl⟩
  rintro roots overrides ⟨⟩

theorem perform_cons_eq {r r' : Renderer} {c : Control} {history : List Control}
    {log : List (Control × Answer)} (h : r.perform (c :: history) = .ok (log, r')) :
    ∃ a next rest, r.obey c = .ok (a, next) ∧ next.perform history = .ok (rest, r') ∧
      log = (c, a) :: rest := by
  rw [perform] at h
  cases hc : r.obey c with
  | error f =>
    rw [hc] at h
    cases h
  | ok result =>
    rw [hc] at h
    obtain ⟨⟨rest, last⟩, hrest, heq⟩ := map_eq_ok h
    cases heq
    exact ⟨result.1, result.2, rest, rfl, hrest, rfl⟩

/-- What every call keeps holds after a history. -/
theorem perform_keeps {P : Renderer → Prop}
    (kept : ∀ r c a r', P r → r.obey c = .ok (a, r') → P r') (history : List Control)
    {r r' : Renderer} (h : P r) {log : List (Control × Answer)}
    (hp : r.perform history = .ok (log, r')) : P r' := by
  induction history generalizing r log with
  | nil =>
    cases hp
    exact h
  | cons c history ih =>
    obtain ⟨a, next, rest, hc, hrest, -⟩ := perform_cons_eq hp
    exact ih (kept r c a next h hc) hrest

theorem perform_kept (history : List Control) {m : Memory} {r r' : Renderer} (h : Kept m r)
    {log : List (Control × Answer)} (hp : r.perform history = .ok (log, r')) :
    Kept (log.foldl Memory.after m) r' := by
  induction history generalizing m r log with
  | nil =>
    cases hp
    exact h
  | cons c history ih =>
    obtain ⟨a, next, rest, hc, hrest, rfl⟩ := perform_cons_eq hp
    exact ih (obey_kept h hc) hrest

end Renderer

/-- What can be set up at one rate can be set up at any other, if only it can run there. -/
theorem setup_fault_of_ok {op : Op} {key : Option String} {rate' : Float32} {k : Kernel}
    (h : Kernel.setup op key rate = .ok k) {e : Kernel.SetupError}
    (he : Kernel.setup op key rate' = .error e) : ∃ f, e = .fault f := by
  cases op with
  | delay maxMs =>
    rw [Kernel.setup] at he
    split at he
    · cases he
    · cases he
      exact ⟨_, rfl⟩
  | tap t =>
    -- a tap is set up without a look at the rate
    have hsame : Kernel.setup (.tap t) key rate' = Kernel.setup (.tap t) key rate := by
      cases t <;> rfl
    rw [hsame, h] at he
    cases he
  | _ => cases he

theorem build_fault_of_ok {rate' : Float32} {p : Program}
    (h : Program.build left right rate = .ok p) {e : Kernel.SetupError}
    (he : Program.build left right rate' = .error e) : ∃ f, e = .fault f := by
  obtain ⟨cells, hcells, -⟩ := (build_eq_ok_iff p).1 h
  have hall := (exists_forall₂ _ _).1 ⟨cells, hcells⟩
  rw [Program.build] at he
  cases hm : (nodesOf [left, right]).mapM (Program.cellOf (nodesOf [left, right]) rate') with
  | ok cells' =>
    rw [hm] at he
    cases he
  | error e' =>
    rw [hm] at he
    cases he
    obtain ⟨n, hn, hcell⟩ := mapM_error hm
    obtain ⟨c, hc⟩ := hall n hn
    obtain ⟨k, hk, -⟩ := (cellOf_ok_iff _ _ _).1 hc
    rw [Program.cellOf] at hcell
    split at hcell
    · cases hcell
    · next e'' hsetup =>
      cases hcell
      exact setup_fault_of_ok hk hsetup

/-- The rate of a renderer in use is refused for its own sake or because a kernel cannot run at it,
but never for what is loaded. -/
theorem Kept.setSampleRate_error {m : Memory} {r : Renderer} (h : Kept m r) {rate' : Float32}
    {e : RenderError} (refused : r.setSampleRate rate' = .error e) :
    (e = .invalidSampleRate rate' ∧ Renderer.checkSampleRate rate' = .error e) ∨
      ∃ f, e = .fault f := by
  rw [Renderer.setSampleRate] at refused
  cases hc : Renderer.checkSampleRate rate' with
  | error e' =>
    rw [hc] at refused
    cases refused
    refine .inl ⟨?_, rfl⟩
    rw [Renderer.checkSampleRate] at hc
    split at hc
    · cases hc
    · cases hc
      rfl
  | ok _ =>
    rw [hc] at refused
    cases hl : r.loaded with
    | none =>
      rw [hl] at refused
      cases refused
    | some l =>
      obtain ⟨rate₀, p, hb⟩ := h.built _ _ (by rw [Renderer.asked, hl]; rfl)
      rw [hl] at refused
      simp only [Renderer.buildProgram] at refused
      cases hb' : Program.build l.leftRoot l.rightRoot rate' with
      | ok p' =>
        rw [hb'] at refused
        cases refused
      | error e' =>
        rw [hb'] at refused
        cases refused
        obtain ⟨f, rfl⟩ := build_fault_of_ok hb hb'
        exact .inr ⟨f, rfl⟩

end Patchbay
